import Idl.Proofs.Grammar.Soundness

/-!
# Where the annotations of a file were written

The tree keeps of an annotation the place of its sign and the places of the components of its name.
The annotations with arguments that are in the tree of a file are found by them among the tokens of
the file, with their parentheses.

* §1 annotations among tokens, §2 more rules of reading,
* §3 single annotations, §4 messages and services, §5 files.
-/

namespace Idl

open scoped Computability

/-! ## §1 Annotations among tokens -/

namespace Tree

/-- The last component. -/
def Path.last (p : Path) : Ident := p.parts.getLast (List.cons_ne_nil p.first p.more)

/-- The annotations of a declaration and of its members. -/
def Decl.annots : Decl → List Annot
  | .message m => m.annots ++ m.fields.flatMap (·.annots)
  | .service s => s.annots ++ s.methods.flatMap (·.annots)

/-- All annotations of a file. -/
def File.annots (f : File) : List Annot := f.decls.flatMap Decl.annots

end Tree

/-- Among the tokens is an annotation with parentheses: from its sign to the last component of its
name, the opening and the closing parenthesis. -/
def Phrase.Parenthesized (w : List Token) (sign last opening closing : Token) : Prop :=
  ∃ x p as y : List Token, w = x ++ sign :: (p ++ last :: opening :: (as ++ closing :: y))
    ∧ sign.kind = .atSign ∧ p ++ [last] ∈ path ∧ opening.kind = .openParen ∧ as ∈ maybe args
    ∧ closing.kind = .closeParen

namespace Tree.Annot

/-- An annotation of the tree is one of those among the tokens, if it has parentheses. -/
def WrittenIn (a : Annot) (w : List Token) : Prop :=
  a.args?.isSome = true → ∃ sign last opening closing,
    Phrase.Parenthesized w sign last opening closing
      ∧ a.loc.span.start = sign.start ∧ a.name.last.loc = last.loc

variable {a : Annot} {v w : List Token}

theorem WrittenIn.append_left (h : a.WrittenIn w) (v : List Token) : a.WrittenIn (v ++ w) := by
  intro hargs
  obtain ⟨sign, last, opening, closing, ⟨x, p, as, y, rfl, hwritten⟩, hplace⟩ := h hargs
  exact ⟨sign, last, opening, closing, ⟨v ++ x, p, as, y, by simp, hwritten⟩, hplace⟩

theorem WrittenIn.append_right (h : a.WrittenIn w) (v : List Token) : a.WrittenIn (w ++ v) := by
  intro hargs
  obtain ⟨sign, last, opening, closing, ⟨x, p, as, y, rfl, hwritten⟩, hplace⟩ := h hargs
  exact ⟨sign, last, opening, closing, ⟨x, p, as, y ++ v, by simp, hwritten⟩, hplace⟩

end Tree.Annot

/-- All of some annotations are among the tokens. -/
def AllWritten (l : List Tree.Annot) (w : List Token) : Prop := ∀ a ∈ l, a.WrittenIn w

namespace AllWritten

variable {l m : List Tree.Annot} {v w : List Token}

theorem nil : AllWritten [] w := by simp [AllWritten]

theorem append_left (h : AllWritten l w) (v : List Token) : AllWritten l (v ++ w) :=
  fun a ha => (h a ha).append_left v

theorem append_right (h : AllWritten l w) (v : List Token) : AllWritten l (w ++ v) :=
  fun a ha => (h a ha).append_right v

theorem append (hl : AllWritten l w) (hm : AllWritten m w) : AllWritten (l ++ m) w :=
  fun a ha => (List.mem_append.mp ha).elim (hl a) (hm a)

theorem cons {a : Tree.Annot} (ha : a.WrittenIn w) (hl : AllWritten l w) : AllWritten (a :: l) w :=
  List.forall_mem_cons.mpr ⟨ha, hl⟩

theorem reverse (h : AllWritten l w) : AllWritten l.reverse w :=
  fun a ha => h a (List.mem_reverse.mp ha)

end AllWritten

namespace Grammar

variable {α β σ : Type} {c : Cursor}

/-! ## §2 More rules of reading -/

theorem Reads.and {p : Grammar α} {P Q : α → List Token → Prop} (hp : Reads p P)
    (hq : Reads p Q) : Reads p fun a w => P a w ∧ Q a w :=
  fun c hc => (hp c hc).and (hq c hc)

/-- What is known of every result. -/
theorem Reads.and_result {p : Grammar α} {P : α → List Token → Prop} {S : α → Prop} (hp : Reads p P)
    (hS : ∀ c a d, p c = .ok (a, d) → S a) : Reads p fun a w => P a w ∧ S a := by
  intro c hc a d h
  obtain ⟨w, hrest, hending, hw⟩ := hp c hc h
  exact ⟨w, hrest, hending, hw, hS c a d h⟩

/-- The place that is added begins with the first token that is consumed. -/
theorem Reads.located_at {p : Grammar α} {build : Loc → α → β} {P : α → List Token → Prop}
    {R : β → List Token → Prop} (hp : Reads p P)
    (h : ∀ loc a t w, loc.span.start = t.start → P a (t :: w) → R (build loc a) (t :: w))
    (hne : ∀ a w, P a w → w ≠ []) : Reads (Grammar.located build p) R := by
  refine fun c hc => .peek_bind fun t ht => (hp c hc).bind hc fun a w c' _ hrest hw => ?_
  intro b d hb
  cases hb
  obtain ⟨u, w, rfl⟩ := List.exists_cons_of_ne_nil (hne a w hw)
  obtain rfl := eq_of_peek ht hrest
  exact ⟨[], rfl, rfl, by simpa using h _ a t w rfl hw⟩

theorem exists_of_located {p : Grammar α} {build : Loc → α → β} {b : β} {d : Cursor}
    (h : located build p c = .ok (b, d)) : ∃ loc a, b = build loc a := by
  obtain ⟨t, _, -, h⟩ := exists_of_bind_eq_ok h
  obtain ⟨a, _, -, h⟩ := exists_of_bind_eq_ok h
  obtain ⟨s, _, -, h⟩ := exists_of_bind_eq_ok h
  cases h
  exact ⟨_, a, rfl⟩

/-! ## §3 Single annotations -/

theorem reads_ident_loc : Reads ident fun i w => ∃ t, w = [t] ∧ i.loc = t.loc := by
  refine fun c hc => .peek_bind fun t ht => .ite (fun h => ?_) fun _ => .failExpected
  have h : t.kind = .ident := by simpa using h
  exact .advance_pure hc ht (by rw [h]; decide) ⟨t, rfl, rfl⟩

/-- A dotted name ends with its last component. -/
theorem reads_path_last :
    Reads path fun p w => ∃ v, ∃ t : Token, w = v ++ [t] ∧ p.last.loc = t.loc := by
  refine Reads.located (P := fun (x : Tree.Ident × List Tree.Ident) w =>
    ∃ v, ∃ t : Token, w = v ++ [t]
      ∧ ((x.1 :: x.2).getLast (List.cons_ne_nil _ _)).loc = t.loc) ?_
    fun _ _ _ h => h
  refine reads_ident_loc.bind fun first w hfirst => ?_
  -- the components behind the first one come last first
  refine (Reads.loop
    (I := fun parts w => ∃ v, ∃ t : Token, w = v ++ [t] ∧ (parts.headD first).loc = t.loc)
    (J := fun parts w => ∃ v, ∃ t : Token, w = v ++ [t] ∧ (parts.headD first).loc = t.loc)
    (w := w) ?_ ?_).bind ?_
  · rintro parts w hw
    refine reads_separator.bind fun b v hv => ?_
    cases b with
    | false =>
      obtain rfl := took_false.mp hv
      exact .pure (by simpa using hw)
    | true =>
      refine reads_ident_loc.bind fun part u ⟨t, hu, hloc⟩ => .pure ?_
      subst hu
      exact ⟨by simp, w ++ v, t, by simp, hloc⟩
  · obtain ⟨t, rfl, hloc⟩ := hfirst
    exact ⟨[], t, rfl, hloc⟩
  · rintro more v ⟨u, t, hu, hloc⟩
    refine .pure ⟨u, t, by simpa using hu, ?_⟩
    rw [← hloc]
    congr 1
    cases more with
    | nil => rfl
    | cons i more => simp

theorem reads_annot_written : Reads annot fun a w => a.WrittenIn w := by
  refine Reads.located_at (P := fun (x : Tree.Path × Option (List Tree.Arg)) w =>
    w ≠ [] ∧ (x.2.isSome = true → ∃ (sign : Token) (p : List Token) (last opening : Token)
      (as : List Token) (closing : Token) (r : List Token),
      w = sign :: (p ++ last :: opening :: (as ++ closing :: r)) ∧ sign.kind = .atSign
        ∧ p ++ [last] ∈ Phrase.path ∧ opening.kind = .openParen ∧ as ∈ Phrase.maybe Phrase.args
        ∧ closing.kind = .closeParen ∧ x.1.last.loc = last.loc)) ?_ ?_ fun _ _ h => h.1
  · refine (reads_sigil .atSign).bind fun _ u ⟨sign, hu, hsign⟩ => ?_
    subst hu
    refine (reads_path.and reads_path_last).bind fun name v ⟨⟨hv, _⟩, p, last, hlast, hloc⟩ => ?_
    subst hlast
    refine (reads_accept (by decide)).bind fun b x hx => ?_
    cases b with
    | false =>
      -- without arguments nothing is asked
      refine (Reads.pure (Q := fun args? _ => args? = none) rfl).bind fun args? y hargs => ?_
      refine (reads_accept (by decide)).bind fun b z _ => .pure ⟨by simp, ?_⟩
      simp [hargs]
    | true =>
      obtain ⟨opening, rfl, hopening⟩ := hx
      refine (reads_args.map (R := fun _ w => w ∈ Phrase.maybe Phrase.args
        * Phrase.sign .closeParen) fun _ _ h => h).bind fun args? y hy => ?_
      obtain ⟨as, has, _, ⟨closing, rfl, hclosing⟩, rfl⟩ := Language.mem_mul.mp hy
      refine (reads_accept (by decide)).bind fun b z _ => .pure ⟨by simp, fun _ => ?_⟩
      exact ⟨sign, p, last, opening, as, closing, z, by simp, hsign, hv, hopening, has, hclosing,
        hloc⟩
  -- the first token read is the sign, so the annotation stands where it stands
  · rintro loc ⟨name, args?⟩ t w hstart ⟨-, h⟩ hargs
    obtain ⟨sign, p, last, opening, as, closing, r, hw, hsign, hp, ho, has, hc, hloc⟩ := h hargs
    obtain ⟨rfl, rfl⟩ := List.cons.inj hw
    exact ⟨t, last, opening, closing, ⟨[], p, as, r, rfl, hsign, hp, ho, has, hc⟩, hstart, hloc⟩

/-! ## §4 Messages and services -/

theorem annots_of_field {annots : List Tree.Annot} {d : Tree.Field} {c' : Cursor}
    (h : field annots c = .ok (d, c')) : d.annots = annots := by
  unfold field at h
  obtain ⟨loc, x, rfl⟩ := exists_of_located h
  rfl

theorem annots_of_method {annots : List Tree.Annot} {d : Tree.Method} {c' : Cursor}
    (h : method annots c = .ok (d, c')) : d.annots = annots := by
  unfold method at h
  obtain ⟨loc, x, rfl⟩ := exists_of_located h
  rfl

theorem annots_of_messageMember {annots : List Tree.Annot} {d : Tree.Field} {c' : Cursor}
    (h : messageMember annots c = .ok (d, c')) : d.annots = annots := by
  obtain ⟨t, c₁, -, h⟩ := exists_of_bind_eq_ok h
  change StateT.run _ c₁ = _ at h
  split at h
  · split at h
    · obtain ⟨t, c₂, -, h⟩ := exists_of_bind_eq_ok h
      cases h
    · exact annots_of_field h
  · obtain ⟨t, c₂, -, h⟩ := exists_of_bind_eq_ok h
    cases h
  · obtain ⟨t, c₂, -, h⟩ := exists_of_bind_eq_ok h
    cases h

/-- A method has the annotations that were pending. -/
theorem annots_of_serviceMember {annots : List Tree.Annot} {d : Tree.Method} {c' : Cursor}
    (h : serviceMember annots c = .ok (d, c')) : d.annots = annots := by
  obtain ⟨b, c₁, -, h⟩ := exists_of_bind_eq_ok h
  cases b with
  -- of the words that may begin a member, one is supported
  | true => exact annots_of_method h
  | false =>
    obtain ⟨b, c₂, -, h⟩ := exists_of_bind_eq_ok h
    cases b with
    | true =>
      obtain ⟨t, c₃, -, h⟩ := exists_of_bind_eq_ok h
      cases h
    | false =>
      obtain ⟨b, c₃, -, h⟩ := exists_of_bind_eq_ok h
      cases b with
      | true =>
        obtain ⟨t, c₄, -, h⟩ := exists_of_bind_eq_ok h
        cases h
      | false =>
        obtain ⟨t, c₄, -, h⟩ := exists_of_bind_eq_ok h
        cases h

/-- The annotations of the members of a body are among its tokens. -/
theorem reads_body_written {member : List Tree.Annot → Grammar α} {A : α → List Tree.Annot}
    (hmember : ∀ annots, Reads (member annots) fun m w => w ≠ [] ∧ A m = annots) :
    Reads (body member) fun l w => AllWritten (l.flatMap A) w := by
  refine (reads_sigil .openCurl).bind fun _ u _ => ?_
  -- the annotations waiting and those of the members done all stand in what was read
  refine (Reads.loop (I := fun (s : Members α) w => AllWritten s.pending w
      ∧ AllWritten (s.done.flatMap A) w)
    (J := fun s w => AllWritten (s.done.flatMap A) w) (s := {}) (w := []) ?_ ⟨.nil, .nil⟩).bind
      fun s w hw => .pure ?_
  · rintro s w ⟨hpending, hdone⟩
    refine fun c hc => .peek_bind fun t ht => ?_
    split
    · next hkind =>
      refine .noPending_bind fun _ => .advance_pure hc ht (by rw [hkind]; decide) ?_
      exact hdone.append_right [t]
    · refine ((reads_annot.and reads_annot_written).bind fun a v ⟨hv, ha⟩ => .pure ?_) c hc
      rw [List.append_nil]
      exact ⟨Phrase.annot_ne_nil v hv, .cons (ha.append_left w) (hpending.append_right v),
        hdone.append_right v⟩
    · next hkind =>
      refine .advance_pure hc ht (by rw [hkind]; decide) ?_
      exact ⟨by simp, hpending.append_right [t], hdone.append_right [t]⟩
    · refine ((hmember s.pending.reverse).bind fun m v ⟨hv, hm⟩ => .pure ?_) c hc
      rw [List.append_nil]
      refine ⟨hv, .nil, ?_⟩
      rw [List.flatMap_cons, hm]
      exact (hpending.reverse.append_right v).append (hdone.append_right v)
  -- at the closing sign nothing waits, so only the members' annotations are left
  · intro a ha
    have ha : a ∈ s.done.flatMap A := by simpa using ha
    rw [List.append_nil]
    exact (hw a ha).append_left u

/-- A named body: its annotations are those in front of it, and those of its members are among its
tokens. -/
theorem readsAt_message_written {t : Token} (annots : List Tree.Annot) (hc : c.Proper)
    (ht : peek c = .ok (t, c)) (hword : t.isWord "message" = true) :
    ReadsAt c (message annots) fun m w => m.annots = annots
      ∧ AllWritten (m.fields.flatMap (·.annots)) w := by
  refine .located (P := fun (x : Tree.Ident × List Tree.Field) w =>
    AllWritten (x.2.flatMap (·.annots)) w) hc ?_ fun _ _ _ h => ⟨rfl, h⟩
  -- a member has at least one token, so the body ends
  have hmember (annots : List Tree.Annot) :
      Reads (messageMember annots) fun m w => w ≠ [] ∧ m.annots = annots :=
    ((reads_messageMember annots).conseq fun _ w hw => Phrase.field_ne_nil w hw).and_result
      fun _ _ _ => annots_of_messageMember
  refine .keyword hc ht hword fun u _ => reads_ident.bind fun name n _ => ?_
  refine (reads_body_written hmember).bind fun fields w hw => .pure ?_
  rw [List.append_nil]
  exact (hw.append_left n).append_left u

/-- The annotations of a service are written in it. -/
theorem readsAt_service_written {t : Token} (annots : List Tree.Annot) (hc : c.Proper)
    (ht : peek c = .ok (t, c)) (hword : t.isWord "service" = true) :
    ReadsAt c (service annots) fun s w => s.annots = annots
      ∧ AllWritten (s.methods.flatMap (·.annots)) w := by
  refine .located (P := fun (x : Tree.Ident × List Tree.Method) w =>
    AllWritten (x.2.flatMap (·.annots)) w) hc ?_ fun _ _ _ h => ⟨rfl, h⟩
  -- a member has at least one token, so the body ends
  have hmember (annots : List Tree.Annot) :
      Reads (serviceMember annots) fun m w => w ≠ [] ∧ m.annots = annots :=
    ((reads_serviceMember annots).conseq fun _ w hw => Phrase.method_ne_nil w hw).and_result
      fun _ _ _ => annots_of_serviceMember
  refine .keyword hc ht hword fun u _ => reads_ident.bind fun name n _ => ?_
  refine (reads_body_written hmember).bind fun methods w hw => .pure ?_
  rw [List.append_nil]
  exact (hw.append_left n).append_left u

/-! ## §5 Files -/

/-- The annotations of what has been read of a file are among its tokens. -/
structure DraftWritten (d : Draft) (w : List Token) : Prop where
  pending : AllWritten d.pending w
  decls : AllWritten (d.decls.flatMap Tree.Decl.annots) w

namespace DraftWritten

variable {d d' : Draft} {v w : List Token}

theorem append_right (h : DraftWritten d w) (v : List Token) : DraftWritten d (w ++ v) :=
  ⟨h.pending.append_right v, h.decls.append_right v⟩

/-- A declaration takes the annotations in front of it. -/
theorem decl (h : DraftWritten d w) {x : Tree.Decl} {members : List Tree.Annot}
    (hx : x.annots = d.pending.reverse ++ members) (hmembers : AllWritten members v) :
    DraftWritten { d with decls := x :: d.decls, pending := [] } (w ++ v) := by
  refine ⟨.nil, ?_⟩
  rw [List.flatMap_cons, hx]
  exact ((h.pending.reverse.append_right v).append (hmembers.append_left w)).append
    (h.decls.append_right v)

end DraftWritten

theorem reads_statement_written {d : Draft} {w : List Token} (h : DraftWritten d w) :
    Reads (statement d) fun d' v => v ≠ [] ∧ DraftWritten d' (w ++ v) := by
  refine fun c hc => .peek_bind fun t ht => .ite (fun hword => ?_) fun _ => ?_
  · refine ((readsAt_message _ hc ht hword).and (readsAt_message_written _ hc ht hword)).bind hc
      fun m v c' _ _ ⟨⟨hv, _⟩, hannots, hmembers⟩ => .pure ?_
    rw [List.append_nil]
    exact ⟨Phrase.message_ne_nil v hv, h.decl (congrArg (· ++ _) hannots) hmembers⟩
  refine .ite (fun hword => ?_) fun _ => .noPending_bind fun _ => ?_
  · refine ((readsAt_service _ hc ht hword).and (readsAt_service_written _ hc ht hword)).bind hc
      fun s v c' _ _ ⟨hv, hannots, hmembers⟩ => .pure ?_
    rw [List.append_nil]
    exact ⟨Phrase.service_ne_nil v hv, h.decl (congrArg (· ++ _) hannots) hmembers⟩
  -- other statements change neither the declarations nor the annotations that wait
  have hother {v : List Token} (hne : v ≠ []) {d' : Draft} (hpending : d'.pending = d.pending)
      (hdecls : d'.decls = d.decls) : v ++ [] ≠ [] ∧ DraftWritten d' (w ++ (v ++ [])) := by
    rw [List.append_nil]
    exact ⟨hne, hpending ▸ h.pending.append_right v, hdecls ▸ h.decls.append_right v⟩
  refine .ite (fun hword => ?_) fun _ => ?_
  · refine (readsAt_package hc ht hword).bind hc fun p v c' _ _ ⟨hv, _⟩ => ?_
    exact .ite (fun _ => .fail) fun _ => .pure (hother (Phrase.package_ne_nil v hv) rfl rfl)
  refine .ite (fun hword => ?_) fun _ => ?_
  · exact (readsAt_version hc ht hword).bind hc fun l v c' _ _ hv =>
      .pure (hother (Phrase.version_ne_nil v hv) rfl rfl)
  refine .ite (fun hword => ?_) fun _ => ?_
  · exact (readsAt_setting hc ht hword).bind hc fun l v c' _ _ hv =>
      .pure (hother (Phrase.setting_ne_nil v hv) rfl rfl)
  refine .ite (fun _ => .failUnsupported) fun _ => .ite (fun _ => .failUnsupported) fun _ => ?_
  exact .ite (fun _ => .failUnsupported) fun _ => .failExpected

/-- A step of the file keeps all annotations found so far written in it. -/
theorem reads_fileStep_written {d : Draft} {w : List Token} (h : DraftWritten d w) :
    Reads (fileStep d) fun x v => if x.2 then v ≠ [] ∧ DraftWritten x.1 (w ++ v)
      else DraftWritten x.1 (w ++ v) := by
  refine fun c hc => .peek_bind fun t ht => ?_
  split
  · exact .pure (by simpa using h)
  · refine ((reads_annot.and reads_annot_written).bind fun a v ⟨hv, ha⟩ => .pure ?_) c hc
    rw [List.append_nil]
    exact ⟨Phrase.annot_ne_nil v hv, .cons (ha.append_left w) (h.pending.append_right v),
      h.decls.append_right v⟩
  · next hkind =>
    -- a semicolon
    exact .advance_pure hc ht (by rw [hkind]; decide) ⟨by simp, h.append_right [t]⟩
  · refine ((reads_statement_written h).bind fun d' v hv => .pure ?_) c hc
    rw [List.append_nil]
    exact hv

/-- The annotations of a file that is read are among its tokens. -/
theorem file_written {requirePackage : Bool} {f : Tree.File} {c' : Cursor} (hc : c.Proper)
    (h : file requirePackage c = .ok (f, c')) : AllWritten f.annots c.rest := by
  obtain ⟨start, c₀, hget, h⟩ := exists_of_bind_eq_ok h
  cases hget
  obtain ⟨draft, c₁, hloop, h⟩ := exists_of_bind_eq_ok h
  obtain ⟨w, hrest, -, hw⟩ := Reads.loop (I := DraftWritten) (J := DraftWritten) (s := {})
    (w := []) (fun d w hd => reads_fileStep_written hd) ⟨.nil, .nil⟩ c hc hloop
  obtain ⟨_, c₂, -, h⟩ := exists_of_bind_eq_ok h
  obtain ⟨e, c₃, -, h⟩ := exists_of_bind_eq_ok h
  -- the package is missing, or nothing else can go wrong
  by_cases hmissing : (requirePackage && draft.package.isNone) = true
  · rw [if_pos hmissing] at h
    cases h
  · rw [if_neg hmissing] at h
    obtain ⟨_, _, -, h⟩ := exists_of_bind_eq_ok h
    cases h
    rw [hrest]
    refine AllWritten.append_right (fun a ha => hw.decls a ?_) _
    simpa [Tree.File.annots] using ha

end Grammar

end Idl
