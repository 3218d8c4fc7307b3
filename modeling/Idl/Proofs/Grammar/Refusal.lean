import Idl.Proofs.Grammar.Completeness

/-!
# Constructs that are left out on purpose

A construct that is left out is refused where it begins: the tokens in front of it have to be those
of a file up to that place, and what comes after it does not matter. The languages of this module
say which tokens lead up to a construct; nothing in them says how tokens are read.

* §1 the constructs and what leads up to them,
* §2 the logic of refusal, §3 its rules,
* §4 types, §5 messages, §6 services, §7 files.
-/

namespace Idl

open scoped Computability

namespace Phrase

/-! ## §1 Constructs -/

/-- The constructs that are left out on purpose, with the numbers of their errors and their names. -/
def constructs : List (Feature × Nat × Bytes) :=
  [(.importing, 2100, "import"), (.oneof, 2101, "oneof"), (.fixedWidth, 2102, "fixed-width types"),
    (.zigzag, 2103, "zigzag (sint) types"), (.fieldOptions, 2104, "field options"),
    (.reserved, 2105, "reserved"), (.extend, 2106, "extend"), (.nestedOption, 2107, "nested option"),
    (.enum, 2108, "enum"), (.repeated, 2109, "repeated"), (.map, 2110, "map"),
    (.nestedMessage, 2111, "nested message"), (.stream, 2112, "stream"), (.array, 2113, "array type"),
    (.extensions, 2114, "extensions")]

/-- The constructs that words stand for where a member of a message may begin. -/
def memberConstructs : List (Bytes × Feature) :=
  [("oneof", .oneof), ("reserved", .reserved), ("option", .nestedOption), ("enum", .enum),
    ("repeated", .repeated), ("message", .nestedMessage), ("extensions", .extensions),
    ("extend", .extend)]

/-- The constructs that words stand for where a type may begin. -/
def typeConstructs : List (Bytes × Feature) :=
  [("fixed32", .fixedWidth), ("fixed64", .fixedWidth), ("sfixed32", .fixedWidth),
    ("sfixed64", .fixedWidth), ("sint32", .zigzag), ("sint64", .zigzag), ("stream", .stream)]

/-- The constructs that words stand for where a member of a service may begin. -/
def serviceConstructs : List (Bytes × Feature) := [("option", .nestedOption), ("stream", .stream)]

/-- The constructs that words stand for where a statement of a file may begin. -/
def fileConstructs : List (Bytes × Feature) :=
  [("import", .importing), ("extend", .extend), ("enum", .enum)]

/-- What leads up to a construct, given the construct, the token that it begins with and the tokens
after that one. -/
abbrev Lead : Type := Feature → Token → List Token → Language Token

/-- Nothing, where the construct, the token and what follows it are as they have to be. -/
def here (p : Feature → Token → List Token → Prop) : Lead := fun f t r w => w = [] ∧ p f t r

/-- The token is a word that stands for the construct. -/
def wordLead (table : List (Bytes × Feature)) : Lead :=
  here fun f t _ => ∃ text, (text, f) ∈ table ∧ t.isWord text = true

/-- The token is of the kind that stands for the construct. -/
def signLead (kind : TokenKind) (feature : Feature) : Lead :=
  here fun f t _ => f = feature ∧ t.kind = kind

/-- The token is the type `map`, and its parameters follow. -/
def mapLead : Lead :=
  here fun f t r => f = .map ∧ t.isWord "map" = true ∧ ∃ u v, r = u :: v ∧ u.kind = .lt

/-- In a type that begins with a name, but with none of some words: a word that is no type, `map`
with parameters, or a bracket behind the type. -/
def typeLead (words : List Bytes) : Lead := fun f t r =>
  wordLead typeConstructs f t r + mapLead f t r
    + typeBut words * signLead .openSquare .array f t r

/-- In a type, or a bracket in its place. -/
def openTypeLead (words : List Bytes) : Lead := fun f t r =>
  signLead .openSquare .array f t r + typeLead words f t r

/-- In a field: a second label, the type, or a bracket in place of the semicolon. -/
def fieldLead : Lead := fun f t r =>
  label * (wordLead [("repeated", .repeated)] f t r + openTypeLead ["repeated"] f t r)
    + typeLead bareFieldWords f t r
    + fieldHead * signLead .openSquare .fieldOptions f t r

/-- In a member of a message: in place of it, or in a field. -/
def messageMemberLead : Lead := fun f t r =>
  wordLead memberConstructs f t r + signLead .openSquare .array f t r + fieldLead f t r

/-- In a body: in one of its members, with any members before it. -/
def bodyLead (member : Language Token) (lead : Lead) : Lead := fun f t r =>
  sign .openCurl * (sign .semicolon + front * member)∗ * front * lead f t r

/-- In a message. -/
def messageLead : Lead := fun f t r =>
  word "message" * name * bodyLead field messageMemberLead f t r

/-- In a type in parentheses. -/
def parensLead : Lead := fun f t r => sign .openParen * openTypeLead [] f t r

/-- In the input of a method. -/
def inputLead : Lead := fun f t r => parensLead f t r + typeLead ["returns"] f t r

/-- In the output of a method. -/
def outputLead : Lead := fun f t r =>
  (word "returns" + sign .arrow) * (parensLead f t r + openTypeLead [] f t r)

/-- In the braces behind a method. -/
def methodEndLead : Lead := fun f t r =>
  sign .openCurl * (sign .semicolon)∗ * wordLead [("option", .nestedOption)] f t r

/-- In a method. -/
def methodLead : Lead := fun f t r =>
  word "rpc" * name * (inputLead f t r
    + maybe input * (outputLead f t r + maybe output * methodEndLead f t r))

/-- In a member of a service: in place of it, or in a method. -/
def serviceMemberLead : Lead := fun f t r => wordLead serviceConstructs f t r + methodLead f t r

/-- In a service. -/
def serviceLead : Lead := fun f t r =>
  word "service" * name * bodyLead method serviceMemberLead f t r

/-- In a file: in place of a statement, where no annotation waits, or in a declaration. -/
def fileLead : Lead := fun f t r =>
  file false * (wordLead fileConstructs f t r + front * (messageLead f t r + serviceLead f t r))

section Membership

variable {f : Feature} {t : Token} {r w : List Token} {L : Language Token} {words : List Bytes}

theorem mem_constructs {code : Nat} {name : Bytes} :
    (f, code, name) ∈ constructs ↔ f.code = code ∧ f.name = name := by
  constructor
  · exact (by decide : ∀ p ∈ constructs, p.1.code = p.2.1 ∧ p.1.name = p.2.2) (f, code, name)
  · rintro ⟨rfl, rfl⟩
    cases f <;> decide

/-- What stands in front of a construct is all that leads up to it. -/
theorem mem_mul_here {p : Feature → Token → List Token → Prop} :
    w ∈ L * here p f t r ↔ w ∈ L ∧ p f t r := by
  constructor
  · intro h
    obtain ⟨v, hv, _, ⟨rfl, hp⟩, rfl⟩ := Language.mem_mul.mp h
    exact ⟨by rwa [List.append_nil], hp⟩
  · rintro ⟨hw, hp⟩
    exact Language.mem_mul.mpr ⟨w, hw, [], ⟨rfl, hp⟩, List.append_nil w⟩

/-- A function that is nowhere without an answer but outside some words gives what a table says, if
the table has an answer for each of the words and every answer of the table is that of the
function. -/
theorem eq_some_iff_mem_table {construct? : Bytes → Option Feature} {table : List (Bytes × Feature)}
    {text : Bytes} (hnone : construct? text = none ↔ text ∉ words)
    (hwords : ∀ word ∈ words, word ∈ table.map Prod.fst)
    (htable : ∀ p ∈ table, construct? p.1 = some p.2) :
    construct? text = some f ↔ (text, f) ∈ table := by
  refine ⟨fun h => ?_, htable (text, f)⟩
  have hword : text ∈ words := by
    by_contra hnot
    rw [hnone.mpr hnot] at h
    cases h
  obtain ⟨⟨_, g⟩, hg, rfl⟩ := List.mem_map.mp (hwords text hword)
  -- the table has an answer for the word, and there is only one
  obtain rfl : g = f := Option.some.inj ((htable _ hg).symm.trans h)
  exact hg

theorem unsupportedType?_eq_some {text : Bytes} :
    Grammar.unsupportedType? text = some f ↔ (text, f) ∈ typeConstructs :=
  eq_some_iff_mem_table unsupportedType?_eq_none (by decide) (by decide)

theorem unsupportedMember?_eq_some {text : Bytes} :
    Grammar.unsupportedMember? text = some f ↔ (text, f) ∈ memberConstructs :=
  eq_some_iff_mem_table unsupportedMember?_eq_none (by decide) (by decide)

/-- The words that stand for constructs among the types are those that are no types. -/
theorem mem_typeWords {text : Bytes} (h : (text, f) ∈ typeConstructs) : text ∈ typeWords :=
  List.mem_map_of_mem (f := Prod.fst) h

/-- What leads up to a construct in a type begins with a name that may begin the type. -/
theorem exists_head_of_typeLead (hwords : ∀ word ∈ words, word ∉ ("map" : Bytes) :: typeWords)
    (h : w ∈ typeLead words f t r) :
    ∃ u v, w ++ t :: r = u :: v ∧ u.kind = .ident ∧ u.text ∉ words := by
  -- the first word is one of those that name a type
  have hfirst {text : Bytes} (htext : text ∈ ("map" : Bytes) :: typeWords) (ht : t.isWord text = true) :
      t.kind = .ident ∧ t.text ∉ words := by
    obtain ⟨hkind, rfl⟩ := Grammar.isWord_eq_true.mp ht
    exact ⟨hkind, fun hmem => hwords _ hmem htext⟩
  rcases h with (⟨rfl, text, htext, ht⟩ | ⟨rfl, -, ht, -⟩) | hsquare
  · exact ⟨t, r, rfl, hfirst (List.mem_cons_of_mem _ (mem_typeWords htext)) ht⟩
  · exact ⟨t, r, rfl, hfirst (List.mem_cons_self ..) ht⟩
  · obtain ⟨u, v, rfl, hkind, hword⟩ :=
      Grammar.exists_head_of_pathBut (mem_mul_here.mp hsquare).1
    exact ⟨u, v ++ t :: r, rfl, hkind, fun hmem => hword _ (List.mem_append_left _ hmem) rfl⟩

/-- What leads up to a construct in a field begins with a name that may begin a member. -/
theorem exists_head_of_fieldLead (h : w ∈ fieldLead f t r) :
    ∃ u v, w ++ t :: r = u :: v ∧ u.kind = .ident ∧ u.text ∉ memberWords := by
  -- a label, the type of a bare field, or a field without a fault so far
  rcases h with (hlabelled | hbare) | hhead
  · obtain ⟨_, hl, x, -, rfl⟩ := Language.mem_mul.mp hlabelled
    rcases hl with ⟨u, rfl, hu⟩ | ⟨u, rfl, hu⟩
    · refine ⟨u, x ++ t :: r, by simp, (Grammar.isWord_eq_true.mp hu).1, ?_⟩
      rw [(Grammar.isWord_eq_true.mp hu).2]
      decide
    · refine ⟨u, x ++ t :: r, by simp, (Grammar.isWord_eq_true.mp hu).1, ?_⟩
      rw [(Grammar.isWord_eq_true.mp hu).2]
      decide
  · obtain ⟨u, v, huv, hkind, hword⟩ := exists_head_of_typeLead (by decide) hbare
    exact ⟨u, v, huv, hkind, fun hmem =>
      hword (List.mem_cons_of_mem _ (List.mem_cons_of_mem _ hmem))⟩
  · obtain ⟨u, v, rfl, hu⟩ := Grammar.exists_head_of_fieldHead (mem_mul_here.mp hhead).1
    exact ⟨u, v ++ t :: r, rfl, hu⟩

theorem exists_head_of_methodLead (h : w ∈ methodLead f t r) :
    ∃ u v, w ++ t :: r = u :: v ∧ u.isWord "rpc" = true := by
  rw [methodLead, mul_assoc] at h
  obtain ⟨_, ⟨u, rfl, hu⟩, v, -, rfl⟩ := Language.mem_mul.mp h
  exact ⟨u, v ++ t :: r, by simp, hu⟩

end Membership

end Phrase

namespace Grammar

variable {α β σ : Type} {err : SyntaxError} {e t : Token} {f : Feature} {i m r w : List Token}

/-! ## §2 Refusal -/

/-- A piece of grammar gives up on some tokens with an error, whatever comes after them. -/
def Refuses (err : SyntaxError) (p : Grammar α) (i : List Token) : Prop :=
  i ≠ [] ∧ ∀ x s, p ⟨i, x, s⟩ = .error err

/-- The error that a construct is used, at the token that it begins with. -/
def refusal (f : Feature) (t : Token) : SyntaxError := .atToken (.unsupported f t.text) t

/-! ## §3 Rules -/

/-- What is taken first does not matter. -/
theorem Takes.refuses {p : Grammar α} {k : α → Grammar β} {Q : α → Prop} (hp : Takes e p i m Q)
    (hk : ∀ a, Q a → Refuses err (k a) m) : Refuses err (p >>= k) i := by
  have hm : m ≠ [] := by
    obtain ⟨a, -, -, hQ⟩ := hp.run 0
    exact (hk a hQ).1
  refine ⟨fun hi => hm (List.suffix_nil.mp (hi ▸ hp.1)), fun x s => ?_⟩
  obtain ⟨a, s', ha, hQ⟩ := hp.2 x s fun h => absurd h hm
  exact (bind_of_ok ha).trans ((hk a hQ).2 x s')

namespace Refuses

theorem sequential : Sequential e fun (p : Grammar α) i => Refuses err p i :=
  fun _ _ _ _ _ _ => Takes.refuses

/-- What comes later does not matter. -/
theorem bind {p : Grammar α} {k : α → Grammar β} (hp : Refuses err p i) :
    Refuses err (p >>= k) i := by
  refine ⟨hp.1, fun x s => ?_⟩
  rw [bind_apply, hp.2 x s]
  rfl

theorem map {p : Grammar α} {g : α → β} (hp : Refuses err p i) : Refuses err (g <$> p) i := by
  rw [map_eq_pure_bind]
  exact hp.bind

theorem fail : Refuses err (Grammar.fail err : Grammar α) (t :: i) :=
  ⟨List.cons_ne_nil t i, fun _ _ => rfl⟩

theorem failUnsupported :
    Refuses (refusal f t) (Grammar.failUnsupported f : Grammar α) (t :: i) :=
  ⟨List.cons_ne_nil t i, fun _ _ => rfl⟩

theorem peek_bind {k : Token → Grammar α} (hk : Refuses err (k t) (t :: i)) :
    Refuses err (peek >>= k) (t :: i) :=
  ⟨hk.1, fun x s => (bind_of_ok rfl).trans (hk.2 x s)⟩

theorem get_bind {k : Cursor → Grammar α} (hne : i ≠ []) (hk : ∀ c, Refuses err (k c) i) :
    Refuses err (get >>= k) i :=
  ⟨hne, fun x s => (hk ⟨i, x, s⟩).2 x s⟩

theorem located {p : Grammar α} {build : Loc → α → β} (hp : Refuses err p i) :
    Refuses err (Grammar.located build p) i := by
  cases i with
  | nil => exact absurd rfl hp.1
  | cons t i => exact peek_bind hp.bind

theorem loop {step : σ → Grammar (σ × Bool)} {s : σ} (hs : Refuses err (step s) i) :
    Refuses err (Grammar.loop step s) i := by
  refine ⟨hs.1, fun x n => ?_⟩
  rw [Grammar.loop, hs.2 x n]

/-- A loop that goes on comes to what it gives up on. -/
theorem backward {step : σ → Grammar (σ × Bool)} :
    Backward e step fun s i => Refuses err (Grammar.loop step s) i := by
  intro s i m hstep hlt
  -- a refusal lies ahead, so the source does not end here
  have hm : m ≠ [] := by
    obtain ⟨⟨s', more⟩, -, -, -, hloop⟩ := hstep.run 0
    exact hloop.1
  refine ⟨fun hi => hm (List.suffix_nil.mp (hi ▸ hstep.1)), fun x n => ?_⟩
  obtain ⟨⟨s', more⟩, n', hs, hmore, hloop⟩ := hstep.2 x n fun h => absurd h hm
  dsimp only at hmore
  subst hmore
  rw [Grammar.loop, hs]
  simpa [hlt] using hloop.2 x n'

/-- A keyword and a name are taken. -/
theorem named {text : Bytes} {k : Tree.Ident → Grammar α}
    (hw : w ∈ Phrase.word text * Phrase.name) (hk : ∀ name, Refuses err (k name) i) :
    Refuses err (do
      advance
      let name ← ident
      k name) (w ++ i) := by
  obtain ⟨_, ⟨t, rfl, -⟩, _, ⟨n, rfl, hn⟩, rfl⟩ := Language.mem_mul.mp hw
  refine (Takes.advance (e := t)).refuses fun _ _ => ?_
  exact (takes_ident (e := t) hn).refuses fun name _ => hk name

end Refuses

/-! ## §4 Types -/

/-- A name of one component is taken as such. -/
theorem takes_path_one (ht : t.kind = .ident) (hdot : (next e i).kind ≠ .dot)
    (hcolons : (next e i).kind ≠ .doubleColon) :
    Takes e path (t :: i) i fun p => p.dotted = t.text := by
  refine Takes.located (Q := fun x => x.1.name = t.text ∧ x.2 = []) ?_ fun loc x hx => ?_
  · refine (takes_ident ht).bind fun first hfirst => ?_
    refine .bind (Q := fun parts => parts = []) (.loop_done ?_) fun parts hparts => .pure ?_
    · exact .separator_bind_of_ne hdot hcolons (.pure ⟨rfl, rfl⟩)
    · rw [hparts]
      exact ⟨hfirst, rfl⟩
  · simpa [Tree.Path.dotted, Tree.Path.parts, hx.2, Bytes.join] using hx.1

/-- A type that leads to an unsupported construct is refused there. -/
theorem refuses_typeRef {words : List Bytes} (h : w ∈ Phrase.openTypeLead words f t r) :
    Refuses (refusal f t) typeRef (w ++ t :: r) := by
  refine Refuses.located ?_
  rcases h with ⟨rfl, rfl, ht⟩ | (⟨rfl, text, htext, ht⟩ | ⟨rfl, rfl, ht, u, v, rfl, hu⟩) | hsquare
  · -- an opening bracket
    refine .peek_bind ?_
    simp only [ht]
    exact .failUnsupported
  · -- a word from the table
    obtain ⟨hkind, rfl⟩ := isWord_eq_true.mp ht
    refine .peek_bind ?_
    simp only [hkind, Phrase.unsupportedType?_eq_some.mpr htext]
    exact .failUnsupported
  · -- the word map with its angle bracket, which is seen behind the name
    obtain ⟨hkind, htext⟩ := isWord_eq_true.mp ht
    have hnone : unsupportedType? t.text = none := by rw [htext]; decide
    refine .peek_bind ?_
    simp only [hkind, hnone]
    refine (takes_path_one (e := t) hkind (by simp [hu]) (by simp [hu])).refuses fun name hname => ?_
    refine .peek_bind ?_
    rw [if_pos (by simp [hname, htext, hu])]
    exact .fail
  · -- a bracket behind the name
    obtain ⟨htype, rfl, ht⟩ := Phrase.mem_mul_here.mp hsquare
    have hpath := takes_path (e := t) (o := t :: r) htype (by simp [ht]) (by simp [ht])
    obtain ⟨u, v, rfl, hkind, hword⟩ := exists_head_of_pathBut htype
    have hnone : unsupportedType? u.text = none :=
      Phrase.unsupportedType?_eq_none.mpr fun hmem => hword _ (List.mem_append_right _ hmem) rfl
    refine .peek_bind ?_
    simp only [hkind, hnone]
    refine hpath.refuses fun name _ => .peek_bind ?_
    rw [if_neg (by simp [ht]), if_pos (by simp [ht])]
    exact .failUnsupported

/-! ## §5 Messages -/

/-- A label, or none, is read in front of a type. -/
theorem refuses_fieldType {words : List Bytes} {l : List Token}
    (hlabel : Takes t label? (l ++ (w ++ t :: r)) (w ++ t :: r) fun _ => True)
    (hword : (next t (w ++ t :: r)).isWord "repeated" = false)
    (h : w ∈ Phrase.openTypeLead words f t r) (annots : List Tree.Annot) :
    Refuses (refusal f t) (field annots) (l ++ (w ++ t :: r)) := by
  refine Refuses.located (hlabel.refuses fun label _ => (Takes.atWord (e := t)).refuses fun b hb => ?_)
  rw [hword] at hb
  subst hb
  exact (refuses_typeRef h).bind

theorem refuses_field (annots : List Tree.Annot) (h : w ∈ Phrase.fieldLead f t r) :
    Refuses (refusal f t) (field annots) (w ++ t :: r) := by
  rcases h with (hlabelled | hbare) | hhead
  · obtain ⟨l, hl, x, hx, rfl⟩ := Language.mem_mul.mp hlabelled
    have hlabel := takes_label (e := t) (o := x ++ t :: r) hl
    rw [List.append_assoc]
    rcases hx with ⟨rfl, text, htext, ht⟩ | htype
    · obtain ⟨rfl, rfl⟩ : text = "repeated" ∧ f = .repeated := by simpa using htext
      refine Refuses.located (hlabel.refuses fun label _ => (Takes.atWord (e := t)).refuses fun b hb => ?_)
      rw [List.nil_append, next_cons, ht] at hb
      subst hb
      exact .failUnsupported
    · refine refuses_fieldType hlabel ?_ htype annots
      rcases htype with ⟨rfl, -, ht⟩ | htype
      · simp [Token.isWord, ht]
      · obtain ⟨u, v, huv, -, hword⟩ := Phrase.exists_head_of_typeLead (by decide) htype
        rw [huv, next_cons]
        exact isWord_eq_false (by simpa using hword)
  -- a bare type begins with none of the words for labels and members
  · obtain ⟨u, v, huv, -, hword⟩ := Phrase.exists_head_of_typeLead (by decide) hbare
    have hne {text : Bytes} (h : text ∈ Phrase.bareFieldWords) :
        (next t (w ++ t :: r)).isWord text = false := by
      rw [huv, next_cons]
      exact isWord_eq_false fun htext => hword (htext ▸ h)
    refine refuses_fieldType (w := w) (l := []) (takes_label_of_ne ?_ ?_) ?_ (.inr hbare) annots
    · exact hne (by simp [Phrase.bareFieldWords])
    · exact hne (by simp [Phrase.bareFieldWords])
    · exact hne (by simp [Phrase.bareFieldWords, Phrase.memberWords])
  -- options behind everything else of a field
  · obtain ⟨hw, rfl, ht⟩ := Phrase.mem_mul_here.mp hhead
    refine Refuses.located (Refuses.sequential.fieldHead (e := t) hw (by simp [ht]) (by simp [ht])
      fun label type name question number => .peek_bind ?_)
    rw [if_pos (by simp [ht])]
    exact .failUnsupported

/-- A member of a message. -/
theorem refuses_messageMember (annots : List Tree.Annot) (h : w ∈ Phrase.messageMemberLead f t r) :
    Refuses (refusal f t) (messageMember annots) (w ++ t :: r) := by
  rcases h with (⟨rfl, text, htext, ht⟩ | ⟨rfl, rfl, ht⟩) | hfield
  · obtain ⟨hkind, rfl⟩ := isWord_eq_true.mp ht
    refine .peek_bind ?_
    simp only [hkind, Phrase.unsupportedMember?_eq_some.mpr htext]
    exact .failUnsupported
  · refine .peek_bind ?_
    simp only [ht]
    exact .failUnsupported
  · -- a field, which begins with none of the words refused at once
    have hrefuses := refuses_field annots hfield
    obtain ⟨u, v, huv, hkind, hword⟩ := Phrase.exists_head_of_fieldLead hfield
    rw [huv] at hrefuses ⊢
    refine .peek_bind ?_
    simp only [hkind, Phrase.unsupportedMember?_eq_none.mpr hword]
    exact hrefuses

/-- A body in braces, given that its members are taken and that a member is refused. -/
theorem refuses_body (he : e.kind = .eof) {member : List Tree.Annot → Grammar α}
    {L : Language Token} {lead : Phrase.Lead}
    (hmember : ∀ w ∈ L, ∀ annots o, Takes e (member annots) (w ++ o) o fun _ => True)
    (hhead : ∀ w ∈ L, ∃ t r, w = t :: r ∧ t.kind = .ident)
    (hlead : ∀ w ∈ lead f t r, ∀ annots, Refuses (refusal f t) (member annots) (w ++ t :: r))
    (hfirst : ∀ w ∈ lead f t r, ∃ u v, w ++ t :: r = u :: v
      ∧ (u.kind = .ident ∨ u.kind = .openSquare))
    (hw : w ∈ Phrase.bodyLead L lead f t r) :
    Refuses (refusal f t) (body member) (w ++ t :: r) := by
  obtain ⟨_, hbefore, x, hx, rfl⟩ := Language.mem_mul.mp hw
  obtain ⟨_, hopen, front, hfront, rfl⟩ := Language.mem_mul.mp hbefore
  obtain ⟨_, ⟨start, rfl, hstart⟩, items, hitems, rfl⟩ := Language.mem_mul.mp hopen
  obtain ⟨u, v, huv, hkind⟩ := hfirst x hx
  -- a member begins with a name or an annotation, so the loop tries no other case
  have hrefuses (s : Members α) :
      Refuses (refusal f t) (loop (memberStep member) s) (x ++ t :: r) := by
    have hmember := hlead x hx s.pending.reverse
    rw [huv] at hmember ⊢
    refine .loop (.peek_bind ?_)
    rcases hkind with hkind | hkind
    · simp only [hkind]
      exact hmember.bind
    · simp only [hkind]
      exact hmember.bind
  -- so what follows the items before it continues no annotation
  have hfollow : (next e (x ++ t :: r)).kind ∉ annotContinuations := by
    rw [huv, next_cons]
    rcases hkind with hkind | hkind <;> simp [hkind, annotContinuations]
  have hloop := Refuses.backward.members he hmember hhead
    (fun s _ => Refuses.backward.memberFront he hfollow hrefuses hfront s) hitems {} rfl
  rw [List.append_assoc, List.append_assoc, List.append_assoc]
  exact (Takes.sigil (e := e) hstart).refuses fun _ _ => hloop.bind

/-- A message, in its body. -/
theorem refuses_message (he : e.kind = .eof) (annots : List Tree.Annot)
    (h : w ∈ Phrase.messageLead f t r) :
    Refuses (refusal f t) (message annots) (w ++ t :: r) := by
  obtain ⟨x, hx, b, hb, rfl⟩ := Language.mem_mul.mp h
  rw [List.append_assoc]
  refine Refuses.located (.named hx fun name => Refuses.bind ?_)
  refine refuses_body he (fun w hw annots o => takes_messageMember hw annots) (fun w hw => ?_)
    (fun w hw annots => refuses_messageMember annots hw) (fun w hw => ?_) hb
  · obtain ⟨u, v, huv, hkind, -⟩ := exists_head_of_field hw
    exact ⟨u, v, huv, hkind⟩
  · -- the refused construct is a word, a number or part of a field
    rcases hw with (⟨rfl, text, -, ht⟩ | ⟨rfl, -, ht⟩) | hfield
    · exact ⟨t, r, rfl, .inl (isWord_eq_true.mp ht).1⟩
    · exact ⟨t, r, rfl, .inr ht⟩
    · obtain ⟨u, v, huv, hkind, -⟩ := Phrase.exists_head_of_fieldLead hfield
      exact ⟨u, v, huv, .inl hkind⟩

/-! ## §6 Services -/

theorem refuses_parameter (h : w ∈ Phrase.openTypeLead [] f t r) :
    Refuses (refusal f t) parameter (w ++ t :: r) := by
  have hnext : (next t (w ++ t :: r)).kind ≠ .closeParen := by
    rcases h with ⟨rfl, -, ht⟩ | htype
    · simp [ht]
    · obtain ⟨u, v, huv, hkind, -⟩ := Phrase.exists_head_of_typeLead (by decide) htype
      simp [huv, hkind]
  refine (Takes.accept_of_ne hnext).refuses fun b hb => ?_
  subst hb
  exact (refuses_typeRef h).bind

/-- The input of a method. -/
theorem refuses_methodInput (h : w ∈ Phrase.inputLead f t r) :
    Refuses (refusal f t) methodInput (w ++ t :: r) := by
  rcases h with hparens | htype
  · obtain ⟨_, ⟨p, rfl, hp⟩, x, hx, rfl⟩ := Language.mem_mul.mp hparens
    rw [List.append_assoc]
    refine (Takes.accept (e := t) hp).refuses fun b hb => ?_
    subst hb
    exact refuses_parameter hx
  · -- bare: the type begins with a word that is not returns
    have hrefuses := refuses_typeRef (.inr htype)
    obtain ⟨u, v, huv, hkind, hword⟩ := Phrase.exists_head_of_typeLead (by decide) htype
    rw [huv] at hrefuses ⊢
    refine (Takes.accept_of_ne (e := t) (by simp [hkind])).refuses fun b hb => ?_
    subst hb
    refine .peek_bind ?_
    rw [if_pos (by simpa [hkind] using hword)]
    exact hrefuses.map

/-- The answer of a method, behind its mark. -/
theorem refuses_methodOutput (h : w ∈ Phrase.outputLead f t r) :
    Refuses (refusal f t) methodOutput (w ++ t :: r) := by
  obtain ⟨m, hm, x, hx, rfl⟩ := Language.mem_mul.mp h
  rw [List.append_assoc]
  refine (takes_outputMark (e := t) hm).refuses fun b hb => ?_
  subst hb
  rcases hx with hparens | htype
  · obtain ⟨_, ⟨p, rfl, hp⟩, x, hx, rfl⟩ := Language.mem_mul.mp hparens
    rw [List.append_assoc]
    refine (Takes.accept (e := t) hp).refuses fun b hb => ?_
    subst hb
    exact refuses_parameter hx
  · have hrefuses := refuses_typeRef htype
    -- bare: no parenthesis stands there
    have hnext : (next t (x ++ t :: r)).kind ≠ .openParen := by
      rcases htype with ⟨rfl, -, ht⟩ | htype
      · simp [ht]
      · obtain ⟨u, v, huv, hkind, -⟩ := Phrase.exists_head_of_typeLead (by decide) htype
        simp [huv, hkind]
    refine (Takes.accept_of_ne hnext).refuses fun b hb => ?_
    subst hb
    exact hrefuses.map

/-- The end of a method. -/
theorem refuses_methodEnd (h : w ∈ Phrase.methodEndLead f t r) :
    Refuses (refusal f t) methodEnd (w ++ t :: r) := by
  obtain ⟨hw, text, htext, ht⟩ := Phrase.mem_mul_here.mp h
  obtain ⟨_, ⟨q, rfl, hq⟩, items, hitems, rfl⟩ := Language.mem_mul.mp hw
  obtain ⟨rfl, rfl⟩ : text = "option" ∧ f = .nestedOption := by simpa using htext
  obtain ⟨ws, rfl, hws⟩ := Language.mem_kstar.mp hitems
  clear h hw hitems
  rw [List.append_assoc]
  refine (Takes.accept (e := t) hq).refuses fun b hb => ?_
  subst hb
  -- by induction on the semicolons in front of the option
  induction ws with
  | nil =>
    refine .loop ((Takes.accept_of_ne (e := t) ?_).refuses fun b hb => ?_)
    · simp [(isWord_eq_true.mp ht).1]
    · subst hb
      refine (Takes.atWord (e := t)).refuses fun b hb => ?_
      have hb : b = t.isWord "option" := hb
      rw [ht] at hb
      subst hb
      exact .failUnsupported
  | cons w ws ih =>
    obtain ⟨s, rfl, hs⟩ := hws w (List.mem_cons_self ..)
    have ih := ih fun w hw => hws w (List.mem_cons_of_mem _ hw)
    rw [List.flatten_cons, List.append_assoc]
    exact Refuses.backward (e := t) (.accept_bind hs (.pure ⟨rfl, ih⟩)) (by simp)

/-- A method: in its input, its answer or its end. -/
theorem refuses_method (annots : List Tree.Annot) (h : w ∈ Phrase.methodLead f t r) :
    Refuses (refusal f t) (method annots) (w ++ t :: r) := by
  obtain ⟨x, hx, y, hy, rfl⟩ := Language.mem_mul.mp h
  rw [List.append_assoc]
  refine Refuses.located (.named hx fun name => ?_)
  rcases hy with hinput | hy
  · exact (refuses_methodInput hinput).bind
  · obtain ⟨inp, hinp, z, hz, rfl⟩ := Language.mem_mul.mp hy
    rw [List.append_assoc]
    rcases hz with houtput | hz
    · -- the mark of the answer ends the input
      have hends : EndsInput (next t (z ++ t :: r)) := by
        obtain ⟨m, hm, y, -, rfl⟩ := Language.mem_mul.mp houtput
        rw [List.append_assoc]
        exact endsInput_of_mark hm
      refine (takes_methodInput hinp hends).refuses fun input _ => ?_
      exact (refuses_methodOutput houtput).bind
    · -- the end of a method has an opening brace, which ends the answer
      obtain ⟨out, hout, x, hx, rfl⟩ := Language.mem_mul.mp hz
      have hends : EndsOutput (next t (x ++ t :: r)) := by
        obtain ⟨hw, -⟩ := Phrase.mem_mul_here.mp hx
        obtain ⟨_, ⟨q, rfl, hq⟩, items, -, rfl⟩ := Language.mem_mul.mp hw
        exact .inr hq
      rw [List.append_assoc]
      refine (takes_methodInput hinp (endsInput_of_output hout hends)).refuses fun input _ => ?_
      refine (takes_methodOutput hout hends).refuses fun output _ => ?_
      exact (refuses_methodEnd hx).bind

theorem refuses_serviceMember (annots : List Tree.Annot)
    (h : w ∈ Phrase.serviceMemberLead f t r) :
    Refuses (refusal f t) (serviceMember annots) (w ++ t :: r) := by
  rcases h with ⟨rfl, text, htext, ht⟩ | hmethod
  -- the words are asked for one after the other, and each that comes earlier is another one
  · have hrpc : text ≠ "rpc" :=
      (by decide : ∀ p ∈ Phrase.serviceConstructs, p.1 ≠ "rpc") (text, f) htext
    refine (Takes.atWord (e := t)).refuses fun b hb => ?_
    have hb : b = t.isWord "rpc" := hb
    rw [isWord_of_isWord ht hrpc] at hb
    subst hb
    refine (Takes.atWord (e := t)).refuses fun b hb => ?_
    have hb : b = t.isWord "option" := hb
    have htable : text = "option" ∧ f = .nestedOption ∨ text = "stream" ∧ f = .stream := by
      simpa [Phrase.serviceConstructs] using htext
    rcases htable with ⟨rfl, rfl⟩ | ⟨rfl, rfl⟩
    · rw [ht] at hb
      subst hb
      exact .failUnsupported
    · rw [isWord_of_isWord ht (by decide)] at hb
      subst hb
      refine (Takes.atWord (e := t)).refuses fun b hb => ?_
      have hb : b = t.isWord "stream" := hb
      rw [ht] at hb
      subst hb
      exact .failUnsupported
  · have hrefuses := refuses_method annots hmethod
    obtain ⟨u, v, huv, hword⟩ := Phrase.exists_head_of_methodLead hmethod
    rw [huv] at hrefuses ⊢
    refine (Takes.atWord (e := t)).refuses fun b hb => ?_
    rw [next_cons, hword] at hb
    subst hb
    exact hrefuses

/-- A service with a refused construct in it is refused there. -/
theorem refuses_service (he : e.kind = .eof) (annots : List Tree.Annot)
    (h : w ∈ Phrase.serviceLead f t r) :
    Refuses (refusal f t) (service annots) (w ++ t :: r) := by
  obtain ⟨x, hx, b, hb, rfl⟩ := Language.mem_mul.mp h
  rw [List.append_assoc]
  refine Refuses.located (.named hx fun name => Refuses.bind ?_)
  refine refuses_body he (fun w hw annots o => takes_method hw annots)
    (fun w hw => exists_head_of_method hw) (fun w hw annots => refuses_serviceMember annots hw)
    (fun w hw => ?_) hb
  -- the refused construct is a member, or part of a method
  rcases hw with ⟨rfl, text, -, ht⟩ | hmethod
  · exact ⟨t, r, rfl, .inl (isWord_eq_true.mp ht).1⟩
  · obtain ⟨u, v, huv, hword⟩ := Phrase.exists_head_of_methodLead hmethod
    exact ⟨u, v, huv, .inl (isWord_eq_true.mp hword).1⟩

/-! ## §7 Files -/

/-- A word that stands for a construct where a statement may begin, with no annotation waiting. -/
theorem refuses_word {d : Draft} {text : Bytes} (hd : d.pending = [])
    (htext : (text, f) ∈ Phrase.fileConstructs) (ht : t.isWord text = true) :
    Refuses (refusal f t) (statement d) (t :: r) := by
  -- the words of the constructs are asked for last, and are none of those asked for before
  have hother : text ∉ (["message", "service", "package", "syntax", "option"] : List Bytes) :=
    (by decide : ∀ p ∈ Phrase.fileConstructs,
      p.1 ∉ (["message", "service", "package", "syntax", "option"] : List Bytes)) (text, f) htext
  simp only [List.mem_cons, List.not_mem_nil, or_false, not_or] at hother
  obtain ⟨hmessage, hservice, hpackage, hsyntax, hoption⟩ := hother
  refine .peek_bind ?_
  rw [isWord_of_isWord ht hmessage, if_neg (by simp), isWord_of_isWord ht hservice,
    if_neg (by simp), hd]
  refine takes_noPending.refuses (e := t) fun _ _ => ?_
  rw [isWord_of_isWord ht hpackage, if_neg (by simp), isWord_of_isWord ht hsyntax,
    if_neg (by simp), isWord_of_isWord ht hoption, if_neg (by simp)]
  have htable : text = "import" ∧ f = .importing ∨ text = "extend" ∧ f = .extend
      ∨ text = "enum" ∧ f = .enum := by simpa [Phrase.fileConstructs] using htext
  rcases htable with ⟨rfl, rfl⟩ | ⟨rfl, rfl⟩ | ⟨rfl, rfl⟩
  · rw [if_pos ht]
    exact .failUnsupported
  · rw [isWord_of_isWord ht (by decide), if_neg (by simp), if_pos ht]
    exact .failUnsupported
  · rw [isWord_of_isWord ht (by decide), if_neg (by simp), isWord_of_isWord ht (by decide),
      if_neg (by simp), if_pos ht]
    exact .failUnsupported

/-- A declaration of a file, whatever annotations wait. -/
theorem refuses_decl (he : e.kind = .eof) (d : Draft)
    (h : w ∈ Phrase.messageLead f t r + Phrase.serviceLead f t r) :
    ∃ u v, w ++ t :: r = u :: v ∧ u.kind = .ident ∧ Refuses (refusal f t) (statement d) (u :: v) := by
  rcases h with h | h
  · have hrefuses := refuses_message he d.pending.reverse h
    rw [Phrase.messageLead, mul_assoc] at h
    obtain ⟨_, ⟨u, rfl, hu⟩, v, -, rfl⟩ := Language.mem_mul.mp h
    refine ⟨u, v ++ t :: r, by simp, (isWord_eq_true.mp hu).1, .peek_bind ?_⟩
    rw [if_pos hu]
    exact hrefuses.bind
  · -- the word of a message was asked for before
    have hrefuses := refuses_service he d.pending.reverse h
    rw [Phrase.serviceLead, mul_assoc] at h
    obtain ⟨_, ⟨u, rfl, hu⟩, v, -, rfl⟩ := Language.mem_mul.mp h
    refine ⟨u, v ++ t :: r, by simp, (isWord_eq_true.mp hu).1, .peek_bind ?_⟩
    rw [isWord_of_isWord hu (by decide), if_neg (by simp), if_pos hu]
    exact hrefuses.bind

theorem refuses_fileStep {d : Draft} (ht : t.kind = .ident)
    (h : Refuses err (statement d) (t :: i)) : Refuses err (fileStep d) (t :: i) := by
  refine .peek_bind ?_
  simp only [ht]
  exact h.bind

/-- What leads up to a construct in a file makes the file be refused for it. -/
theorem refuses_file (requirePackage : Bool) (h : w ∈ Phrase.fileLead f t r) :
    Refuses (refusal f t) (file requirePackage) (w ++ t :: r) := by
  let e : Token := ⟨.eof, 0, .start, []⟩
  obtain ⟨v, hv, x, hx, rfl⟩ := Language.mem_mul.mp h
  obtain ⟨seen, -, hv⟩ := Phrase.mem_file.mp hv
  rw [List.append_assoc]
  refine .get_bind (by simp) fun start => Refuses.bind ?_
  refine Refuses.backward.file (e := e) rfl hv fun d hd hseen => ?_
  rcases hx with ⟨rfl, text, htext, ht⟩ | hx
  · -- a construct that stands alone
    exact .loop (refuses_fileStep (isWord_eq_true.mp ht).1 (refuses_word hd htext ht))
  · obtain ⟨front, hfront, y, hy, rfl⟩ := Language.mem_mul.mp hx
    -- a declaration, behind the annotations in front of it
    have hdecl (d : Draft) : Refuses (refusal f t) (loop fileStep d) (y ++ t :: r) := by
      obtain ⟨u, v, huv, hu, hrefuses⟩ := refuses_decl (e := e) rfl d hy
      rw [huv]
      exact .loop (refuses_fileStep hu hrefuses)
    have hfollow : (next e (y ++ t :: r)).kind ∉ annotContinuations := by
      obtain ⟨u, v, huv, hu, -⟩ := refuses_decl (e := e) rfl d hy
      simp [huv, hu, annotContinuations]
    rw [List.append_assoc]
    exact Refuses.backward.fileFront rfl hfollow (fun d _ => hdecl d) hfront d hseen

end Grammar

end Idl
