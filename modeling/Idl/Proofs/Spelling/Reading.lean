import Idl.Proofs.Spelling.Methods

/-!
# A form is read as the tree that it stands for

Where the grammar is given the lexemes of a form and succeeds, it consumes all of them and its
result is the tree of the form, in some places.

* §1 items, §2 bodies, §3 statements, §4 files.
-/

namespace Idl

namespace Grammar

open Spelling

variable {α β σ : Type} {i o r : List Lexeme}

/-! ## §1 Items -/

section Items

variable {lexemes : β → List Lexeme}

/-- What a step of a loop does with each item, or with what stands behind the last of them. From one
state, some items lead to another state; a semicolon is passed over. -/
structure ReadsItems (step : σ → Grammar (σ × Bool)) (lexemes : β → List Lexeme)
    (Leads : σ → List (Item β) → σ → Prop) (o r : List Lexeme) : Prop where
  head : ∀ x i, nextKind (lexemes x ++ i) = .ident
  behind : nextKind o ∈ [.closeCurl, .eof]
  skip : ∀ {s l s'}, Leads s l s' → Leads s (.semicolon :: l) s'
  ends : ∀ s, Yields (step s) o r fun x => x.2 = false ∧ Leads s [] x.1
  semicolon : ∀ s i, Yields (step s) (sign .semicolon :: i) i fun x => x = (s, true)
  annot : ∀ s (a : Spelling.Annot) i, nextKind i ∉ [.dot, .doubleColon, .openParen] →
    Yields (step s) (a.lexemes ++ i) (pastSemicolon i) fun x =>
      x.2 = true ∧ ∀ l s', Leads x.1 l s' → Leads s (.annot a :: l) s'
  member : ∀ s x i, Yields (step s) (lexemes x ++ i) i fun y =>
    y.2 = true ∧ ∀ l s', Leads y.1 l s' → Leads s (.member x :: l) s'

namespace ReadsItems

variable {step : σ → Grammar (σ × Bool)} {Leads : σ → List (Item β) → σ → Prop}

/-- Items begin with a semicolon, the sign of an annotation or a name. -/
theorem nextKind (h : ReadsItems step lexemes Leads o r) (l : List (Item β)) :
    Grammar.nextKind (Item.lexemesOf lexemes l ++ o)
      ∈ [.closeCurl, .eof, .semicolon, .atSign, .ident] := by
  rcases l with _ | ⟨_ | a | x, l⟩
  · have hbehind := h.behind
    simp only [List.mem_cons, List.not_mem_nil, or_false] at hbehind
    rcases hbehind with hbehind | hbehind <;> simp [Item.lexemesOf, hbehind]
  · simp [Item.lexemesOf, sign]
  · simp [Item.lexemesOf, Spelling.Annot.lexemes, sign]
  · simp [Item.lexemesOf, List.append_assoc, h.head]

/-- What is left of items behind a semicolon that stands first is made of items again. -/
theorem exists_pastSemicolon (h : ReadsItems step lexemes Leads o r) (l : List (Item β)) :
    ∃ l', pastSemicolon (Item.lexemesOf lexemes l ++ o) = Item.lexemesOf lexemes l' ++ o
      ∧ (l = l' ∨ l = .semicolon :: l') := by
  rcases l with _ | ⟨_ | a | x, l⟩
  · have hne : Grammar.nextKind o ≠ .semicolon := ne_of_mem_of_not_mem h.behind (by decide)
    exact ⟨[], if_neg hne, Or.inl rfl⟩
  · exact ⟨l, rfl, Or.inr rfl⟩
  · exact ⟨.annot a :: l, rfl, Or.inl rfl⟩
  · have hne : Grammar.nextKind (Item.lexemesOf lexemes (.member x :: l) ++ o) ≠ .semicolon := by
      rw [Item.lexemesOf, List.append_assoc, h.head]
      simp
    exact ⟨.member x :: l, if_neg hne, Or.inl rfl⟩

theorem length_lexemes_pos (h : ReadsItems step lexemes Leads o r) (x : β) :
    0 < (lexemes x).length := by
  apply List.length_pos_iff.mpr
  intro hnil
  have hhead := h.head x []
  rw [hnil] at hhead
  cases hhead

/-- A loop reads all items, and they lead from its first state to its last. -/
theorem loop (h : ReadsItems step lexemes Leads o r) (l : List (Item β)) (s : σ) :
    Yields (Grammar.loop step s) (Item.lexemesOf lexemes l ++ o) r fun s' => Leads s l s' := by
  -- an annotation takes the semicolon behind it, so that two items can go at once
  induction hn : l.length using Nat.strong_induction_on generalizing l s with
  | _ n ih =>
    subst hn
    rcases l with _ | ⟨_ | a | x, l⟩
    · exact Yields.loop_done (h.ends s)
    · apply Yields.loop_more (m := Item.lexemesOf lexemes l ++ o)
      · apply (h.semicolon s _).conseq
        rintro _ rfl
        have ih := ih l.length (by simp) l s rfl
        exact ⟨rfl, ih.conseq fun _ => h.skip⟩
      · simp [Item.lexemesOf]
    · obtain ⟨l', hpast, hl'⟩ := h.exists_pastSemicolon l
      have hlength : l'.length < (Item.annot a :: l).length := by
        rcases hl' with rfl | rfl
        · exact Nat.lt_succ_self _
        · exact Nat.lt_succ_of_lt (Nat.lt_succ_self _)
      have hbehind : Grammar.nextKind (Item.lexemesOf lexemes l ++ o)
          ∉ [.dot, .doubleColon, .openParen] := by
        have hnext := h.nextKind l
        intro hmem
        simp only [List.mem_cons, List.not_mem_nil, or_false] at hmem
        rcases hmem with hmem | hmem | hmem <;> simp [hmem] at hnext
      rw [Item.lexemesOf, List.append_assoc]
      apply Yields.loop_more (m := pastSemicolon (Item.lexemesOf lexemes l ++ o))
      · apply (h.annot s a _ hbehind).conseq
        rintro y ⟨hmore, hleads⟩
        refine ⟨hmore, ?_⟩
        rw [hpast]
        apply (ih l'.length hlength l' y.1 rfl).conseq
        intro s' hs'
        apply hleads
        rcases hl' with rfl | rfl
        · exact hs'
        · exact h.skip hs'
      · rw [hpast]
        rcases hl' with rfl | rfl <;>
          simp only [Item.lexemesOf, Spelling.Annot.lexemes, List.length_append,
            List.length_cons] <;> omega
    · rw [Item.lexemesOf, List.append_assoc]
      apply Yields.loop_more (m := Item.lexemesOf lexemes l ++ o)
      · apply (h.member s x _).conseq
        rintro y ⟨hmore, hleads⟩
        have ih := ih l.length (by simp) l y.1 rfl
        exact ⟨hmore, ih.conseq fun s' => hleads l s'⟩
      · have hpos := h.length_lexemes_pos x
        simp only [List.length_append]
        omega

end ReadsItems

end Items

/-! ## §2 Bodies -/

/-- The members of a body, given that each of them is read. -/
theorem readsItems_memberStep {member : List Tree.Annot → Grammar α} {lexemes : β → List Lexeme}
    {move : α → α} {put : β → List Tree.Annot → α}
    (hmember : ∀ x annots o, Yields (member annots) (lexemes x ++ o) o fun y =>
      move y = put x (annots.map (·.mapLoc away)))
    (hhead : ∀ x o, nextKind (lexemes x ++ o) = .ident) :
    ReadsItems (memberStep member) lexemes (fun s l s' =>
        s'.done.reverse.map move = s.done.reverse.map move
          ++ Item.gather (fun x => some (put x)) (s.pending.reverse.map (·.mapLoc away)) l)
      (sign .closeCurl :: o) o where
  head := hhead
  behind := by simp [sign]
  skip h := h
  -- the closing bracket, before which no annotation may be pending
  ends s := by
    apply Yields.peek_bind_cons
    intro t hkind _
    rw [hkind]
    apply Yields.bind (P := fun _ => True) (m := sign .closeCurl :: o)
    · cases s.pending.reverse with
      | nil => exact Yields.pure trivial
      | cons a _ => exact Yields.fail
    · intro _ _
      apply Yields.advance_bind
      exact Yields.pure ⟨rfl, by simp [Item.gather]⟩
  semicolon s i := by
    apply Yields.peek_bind_cons
    intro t hkind _
    rw [hkind]
    apply Yields.advance_bind
    exact Yields.pure rfl
  -- an annotation is kept for the member behind it
  annot s a i hi := by
    simp only [List.mem_cons, List.not_mem_nil, or_false, not_or] at hi
    apply Yields.peek_bind_cons
    intro t hkind _
    rw [hkind]
    apply (yields_annot hi.1 hi.2.1 hi.2.2).bind
    intro y hy
    refine Yields.pure ⟨rfl, fun l s' hs' => ?_⟩
    rw [hs']
    simp [Item.gather, hy]
  -- a member takes what is pending
  member s x i := by
    apply Yields.peek_bind
    intro t hkind _
    rw [hkind, hhead]
    apply (hmember x s.pending.reverse _).bind
    intro y hy
    refine Yields.pure ⟨rfl, fun l s' hs' => ?_⟩
    rw [hs']
    simp [Item.gather, hy]

/-- A body in braces, given that its members are read. -/
theorem yields_body {member : List Tree.Annot → Grammar α} {lexemes : β → List Lexeme}
    {move : α → α} {put : β → List Tree.Annot → α}
    (hmember : ∀ x annots o, Yields (member annots) (lexemes x ++ o) o fun y =>
      move y = put x (annots.map (·.mapLoc away)))
    (hhead : ∀ x o, nextKind (lexemes x ++ o) = .ident) (l : List (Item β)) :
    Yields (body member)
      (sign .openCurl :: (Item.lexemesOf lexemes l ++ sign .closeCurl :: o)) o fun x =>
        x.map move = Item.gather (fun x => some (put x)) [] l := by
  apply Yields.sigil_bind rfl
  apply ((readsItems_memberStep hmember hhead).loop l {}).bind
  intro s hs
  exact Yields.pure (by simpa using hs)

/-- A message is read as the tree it is a spelling of. -/
theorem yields_message {m : Spelling.Message} {annots : List Tree.Annot} :
    Yields (message annots) (m.lexemes ++ o) o fun x =>
      x.mapLoc away = m.tree (annots.map (·.mapLoc away)) := by
  apply Yields.located (P := fun x => x.1.mapLoc away = m.name.tree
    ∧ x.2.map (·.mapLoc away) = Item.gather (fun d => some d.tree) [] m.body)
  · simp only [Spelling.Message.lexemes, List.append_assoc, List.cons_append, List.nil_append]
    apply Yields.advance_bind
    apply yields_ident.bind
    intro messageName hname
    apply (yields_body yields_messageMember nextKind_field m.body).bind
    intro fields hfields
    exact Yields.pure ⟨hname, hfields⟩
  · intro loc x hx
    simp only [Tree.Message.mapLoc, hx.1, hx.2]
    rfl

/-- A service is read as the tree it is a spelling of. -/
theorem yields_service {s : Spelling.Service} {annots : List Tree.Annot} :
    Yields (service annots) (s.lexemes ++ o) o fun x =>
      x.mapLoc away = s.tree (annots.map (·.mapLoc away)) := by
  apply Yields.located (P := fun x => x.1.mapLoc away = s.name.tree
    ∧ x.2.map (·.mapLoc away) = Item.gather (fun m => some m.tree) [] s.body)
  · simp only [Spelling.Service.lexemes, List.append_assoc, List.cons_append, List.nil_append]
    apply Yields.advance_bind
    apply yields_ident.bind
    intro serviceName hname
    apply (yields_body yields_serviceMember (fun _ _ => rfl) s.body).bind
    intro methods hmethods
    exact Yields.pure ⟨hname, hmethods⟩
  · intro loc x hx
    simp only [Tree.Service.mapLoc, hx.1, hx.2]
    rfl

/-! ## §3 Statements -/

/-- What has been read of a file, without its places. -/
def Draft.away (d : Draft) : Draft where
  version := d.version.map (·.mapLoc Spelling.away)
  package := d.package.map (·.mapLoc Spelling.away)
  options := d.options.map (·.mapLoc Spelling.away)
  decls := d.decls.map (·.mapLoc Spelling.away)
  pending := d.pending.map (·.mapLoc Spelling.away)

/-- What a statement adds to what has been read. -/
def Draft.put (d : Draft) : Spelling.Statement → Draft
  | .version text => { d with version := some (textTree text) }
  | .package p => { d with package := some ⟨Tree.nowhere, p.tree⟩ }
  | .setting p v => { d with options := ⟨Tree.nowhere, p.tree, v.tree⟩ :: d.options }
  | .message m => { d with decls := .message (m.tree d.pending.reverse) :: d.decls, pending := [] }
  | .service s => { d with decls := .service (s.tree d.pending.reverse) :: d.decls, pending := [] }

theorem isWord_of_lexeme {t : Token} {text : Bytes} (h : t.lexeme = name text) (word : Bytes) :
    t.isWord word = (text == word) := by
  have hkind : t.kind = .ident := congrArg Prod.fst h
  simp [Token.isWord, hkind, text_of_lexeme h rfl]

theorem yields_noPending {pending : List Tree.Annot} :
    Yields (noPending pending) i i fun _ => pending = [] := by
  cases pending with
  | nil => exact Yields.pure rfl
  | cons a r => exact Yields.fail

theorem yields_package {p : Spelling.Path} :
    Yields package (name "package" :: (p.lexemes ++ sign .semicolon :: o)) o fun x =>
      x.mapLoc away = ⟨Tree.nowhere, p.tree⟩ := by
  apply Yields.located (P := fun x => x.mapLoc away = p.tree)
  · apply Yields.advance_bind
    apply (yields_path (by simp [sign]) (by simp [sign])).bind
    intro x hx
    apply Yields.sigil_bind rfl
    exact Yields.pure hx
  · intro loc x hx
    simp [Tree.Package.mapLoc, hx, away]

theorem yields_version {text : Bytes} :
    Yields version (name "syntax" :: sign .eq :: (.textLit, text) :: sign .semicolon :: o) o
      fun x => x.mapLoc away = textTree text := by
  apply Yields.advance_bind
  apply Yields.sigil_bind rfl
  apply yields_textLit.bind
  intro x hx
  apply Yields.sigil_bind rfl
  apply Yields.ite
  · intro _
    exact Yields.pure hx
  · intro _
    exact Yields.fail

/-- An option is read as the tree it is a spelling of. -/
theorem yields_setting {p : Spelling.Path} {v : Spelling.Value} :
    Yields setting
      (name "option" :: (p.lexemes ++ sign .eq :: (v.lexemes ++ sign .semicolon :: o))) o fun x =>
        x.mapLoc away = ⟨Tree.nowhere, p.tree, v.tree⟩ := by
  apply Yields.located (P := fun x => x.1.mapLoc away = p.tree ∧ x.2.mapLoc away = v.tree)
  · apply Yields.advance_bind
    apply (yields_path (by simp [sign]) (by simp [sign])).bind
    intro x hx
    apply Yields.sigil_bind rfl
    apply (yields_value (by simp [sign]) (by simp [sign])).bind
    intro y hy
    apply Yields.sigil_bind rfl
    exact Yields.pure ⟨hx, hy⟩
  · intro loc x hx
    simp [Tree.Setting.mapLoc, hx.1, hx.2, away]

/-- A statement or declaration. There is no second package statement. -/
theorem yields_statement {d : Draft} (st : Spelling.Statement) :
    Yields (statement d) (st.lexemes ++ o) o fun d' =>
      d'.away = d.away.put st ∧ (st.package?.isSome = true → d.package = none) := by
  -- one case for each keyword; only a declaration may have annotations in front of it
  cases st with
  | version text =>
    apply Yields.peek_bind_cons
    intro t _ hlexeme
    simp only [isWord_of_lexeme hlexeme]
    apply yields_noPending.bind
    intro _ _
    apply yields_version.bind
    intro x hx
    exact Yields.pure ⟨by simp [Draft.away, Draft.put, hx], by simp [Statement.package?]⟩
  | package p =>
    simp only [Statement.lexemes, List.cons_append, List.append_assoc, List.nil_append]
    apply Yields.peek_bind_cons
    intro t _ hlexeme
    simp only [isWord_of_lexeme hlexeme]
    apply yields_noPending.bind
    intro _ _
    apply yields_package.bind
    intro x hx
    apply Yields.ite
    · intro _
      exact Yields.fail
    · intro hnone
      exact Yields.pure ⟨by simp [Draft.away, Draft.put, hx], fun _ => by simpa using hnone⟩
  | setting p v =>
    simp only [Statement.lexemes, List.cons_append, List.append_assoc, List.nil_append]
    apply Yields.peek_bind_cons
    intro t _ hlexeme
    simp only [isWord_of_lexeme hlexeme]
    apply yields_noPending.bind
    intro _ _
    apply yields_setting.bind
    intro x hx
    exact Yields.pure ⟨by simp [Draft.away, Draft.put, hx], by simp [Statement.package?]⟩
  | message m =>
    apply Yields.peek_bind_cons
    intro t _ hlexeme
    simp only [isWord_of_lexeme hlexeme]
    apply yields_message.bind
    intro x hx
    exact Yields.pure ⟨by simp [Draft.away, Draft.put, hx, Tree.Decl.mapLoc],
      by simp [Statement.package?]⟩
  | service s =>
    apply Yields.peek_bind_cons
    intro t _ hlexeme
    simp only [isWord_of_lexeme hlexeme]
    apply yields_service.bind
    intro x hx
    exact Yields.pure ⟨by simp [Draft.away, Draft.put, hx, Tree.Decl.mapLoc],
      by simp [Statement.package?]⟩

/-- A statement or declaration begins with a name. -/
theorem nextKind_statement (st : Spelling.Statement) (o : List Lexeme) :
    nextKind (st.lexemes ++ o) = .ident := by
  cases st <;> rfl

/-- What has been read of a file once some items have been read. -/
structure Reaches (d : Draft) (l : List (Item Spelling.Statement)) (d' : Draft) : Prop where
  version : d'.version = (((Item.members l).filterMap Statement.version?).getLast?).or d.version
  package : d'.package.toList = d.package.toList
    ++ ((Item.members l).filterMap Statement.package?).map fun p => ⟨Tree.nowhere, p.tree⟩
  options : d'.options.reverse
    = d.options.reverse ++ (Item.members l).filterMap Statement.setting?
  decls : d'.decls.reverse = d.decls.reverse ++ Item.gather Statement.decl? d.pending.reverse l

namespace Reaches

variable {d d' : Draft} {l : List (Item Spelling.Statement)}

theorem nil : Reaches d [] d := by
  constructor <;> simp [Item.members, Item.gather]

theorem semicolon (h : Reaches d l d') : Reaches d (.semicolon :: l) d' :=
  ⟨h.version, h.package, h.options, h.decls⟩

theorem annot {a : Spelling.Annot} (h : Reaches { d with pending := a.tree :: d.pending } l d') :
    Reaches d (.annot a :: l) d' :=
  ⟨h.version, h.package, h.options, by simpa [Item.gather] using h.decls⟩

/-- The first statement is put into the draft, and the rest is reached from there. -/
theorem member {st : Spelling.Statement} (hnone : st.package?.isSome = true → d.package = none)
    (h : Reaches (d.put st) l d') : Reaches d (.member st :: l) d' := by
  obtain ⟨hversion, hpackage, hoptions, hdecls⟩ := h
  cases st with
  -- the last version counts
  | version text =>
    refine ⟨?_, hpackage, hoptions, hdecls⟩
    rw [hversion]
    simp [Draft.put, Item.members, Statement.version?, List.getLast?_cons]
  -- a package is put once
  | package p =>
    have hnone := hnone rfl
    refine ⟨hversion, ?_, hoptions, hdecls⟩
    rw [hpackage]
    simp [Draft.put, Item.members, Statement.package?, hnone]
  | setting p v =>
    refine ⟨hversion, hpackage, ?_, hdecls⟩
    rw [hoptions]
    simp [Draft.put, Item.members, Statement.setting?]
  | message m =>
    refine ⟨hversion, hpackage, hoptions, ?_⟩
    rw [hdecls]
    simp [Draft.put, Item.gather, Statement.decl?]
  | service s =>
    refine ⟨hversion, hpackage, hoptions, ?_⟩
    rw [hdecls]
    simp [Draft.put, Item.gather, Statement.decl?]

end Reaches

/-! ## §4 Files -/

/-- The statements and declarations of a file. -/
theorem readsItems_fileStep : ReadsItems fileStep Statement.lexemes
    (fun d l d' => Reaches d.away l d'.away) [] [] where
  head := nextKind_statement
  behind := by simp
  skip := Reaches.semicolon
  ends d := by
    apply Yields.peek_bind
    intro t hkind _
    have hkind : t.kind = .eof := hkind
    rw [hkind]
    exact Yields.pure ⟨rfl, Reaches.nil⟩
  semicolon d i := by
    apply Yields.peek_bind_cons
    intro t hkind _
    rw [hkind]
    apply Yields.advance_bind
    exact Yields.pure rfl
  annot d a i hi := by
    simp only [List.mem_cons, List.not_mem_nil, or_false, not_or] at hi
    apply Yields.peek_bind_cons
    intro t hkind _
    rw [hkind]
    apply (yields_annot hi.1 hi.2.1 hi.2.2).bind
    intro y hy
    refine Yields.pure ⟨rfl, fun l d' hd' => ?_⟩
    rw [Draft.away, List.map_cons, hy] at hd'
    exact hd'.annot
  member d st i := by
    apply Yields.peek_bind
    intro t hkind _
    rw [hkind, nextKind_statement]
    apply (yields_statement st).bind
    intro d₁ hd₁
    refine Yields.pure ⟨rfl, fun l d' hd' => ?_⟩
    -- a second package would have been refused
    apply Reaches.member
    · intro h
      simp [Draft.away, hd₁.2 h]
    · rw [← hd₁.1]
      exact hd'

/-- A file is read as the tree of its form. -/
theorem yields_file {f : Spelling.File} {requirePackage : Bool} :
    Yields (file requirePackage) f.lexemes [] fun x =>
      x.erase = f.tree ∧ f.packages.length ≤ 1 := by
  apply Yields.get_bind
  intro start
  have hitems := readsItems_fileStep.loop f.items {}
  rw [List.append_nil] at hitems
  apply hitems.bind
  intro d hd
  apply yields_noPending.bind
  intro _ _
  apply Yields.peek_bind
  intro eof _ _
  apply Yields.ite
  · intro _
    exact Yields.fail
  · intro _
    apply Yields.get_bind
    intro stop
    apply Yields.pure
    obtain ⟨hversion, hpackage, hoptions, hdecls⟩ := hd
    simp only [Draft.away, ← List.map_reverse, List.map_nil, List.reverse_nil, List.nil_append,
      Option.map_none, Option.or_none, Option.toList_none] at hversion hpackage hoptions hdecls
    change _ = f.packages.map _ at hpackage
    -- what was read is what was spelled, and of packages it is at most one
    constructor
    · have hfirst : d.package.map (·.mapLoc Spelling.away)
          = f.package?.map fun p => ⟨Tree.nowhere, p.tree⟩ := by
        rw [Spelling.File.package?, ← List.head?_map, ← hpackage, Option.head?_toList]
      have hplace : Spelling.away = fun _ => Tree.nowhere := rfl
      rw [Tree.File.erase, ← hplace]
      simp only [Tree.File.mapLoc, hversion, hfirst, hoptions, hdecls]
      rfl
    · rw [← List.length_map (fun p : Spelling.Path => (⟨Tree.nowhere, p.tree⟩ : Tree.Package)),
        ← hpackage]
      exact Option.length_toList_le

end Grammar

/-- What is read from a source that is spelled by a form is the tree of the form, and there is at
most one package statement in it. -/
theorem parseFile_of_spells {f : Spelling.File} {src : Bytes} {allowMissingPackage : Bool}
    {x : Tree.File} (hspells : f.Spells src) (h : parseFile src allowMissingPackage = .ok x) :
    x.erase = f.tree ∧ f.packages.length ≤ 1 := by
  obtain ⟨l, hlex, hlexemes⟩ := hspells
  obtain ⟨l', c, hlex', hfile⟩ := exists_of_parseFile_eq_ok h
  obtain rfl : l = l' := Except.ok.inj (hlex.symm.trans hlex')
  exact (Grammar.yields_file _ (significant_proper hlex) hlexemes x c hfile).2.2

end Idl
