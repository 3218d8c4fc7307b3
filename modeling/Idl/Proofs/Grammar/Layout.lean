import Idl.Proofs.Grammar.Outcome

/-!
# The grammar puts its nodes where their tokens are

Each piece of grammar either gives a node that its tokens make up, with the place from the first to
the last of them, or an error that points into the source.

* §1 single tokens, §2 names and constants, §3 annotations,
* §4 messages, §5 services, §6 files.
-/

namespace Idl

variable {src : Bytes}

namespace Grammar

variable {α : Type}

/-! ## §1 Single tokens -/

/-- A token of a kind leaves no node. -/
theorem runs_accept (kind : TokenKind) : Runs src (accept kind) fun _ _ => True := by
  refine fun c hc => .peek_bind hc fun t _ _ => .ite (fun _ => ?_) fun _ => .pure trivial
  exact RunsAt.advance.bind hc fun _ _ _ _ _ _ => .pure trivial

/-- Nor does a sigil. -/
theorem runs_sigil (s : Sigil) : Runs src (sigil s) fun _ _ => True := by
  refine (runs_accept s.kind).bind fun b _ _ => ?_
  cases b with
  | true => exact .pure trivial
  | false => exact .failHere

/-- Nor does the question for a word. -/
theorem runs_atWord (word : Bytes) : Runs src (atWord word) fun _ _ => True :=
  .peek_bind fun _ _ => .pure trivial

/-- Nor does a keyword. -/
theorem runs_acceptWord (word : Bytes) : Runs src (acceptWord word) fun _ _ => True := by
  refine (runs_atWord word).bind fun b _ _ => ?_
  cases b with
  | true => exact fun c hc => RunsAt.advance.bind hc fun _ _ _ _ _ _ => .pure trivial
  | false => exact .pure trivial

/-- The question reads nothing. -/
theorem reads_atWord (word : Bytes) : Reads (atWord word) fun _ w => w = [] :=
  fun _ _ => .peek_bind fun _ _ => .pure rfl

/-- A name is a node over its token. -/
theorem runs_ident : Runs src ident fun i w => Laid i.node w := by
  refine fun c hc => .peek_bind hc fun t ht _ => .ite (fun h => ?_) fun _ => .failExpected hc
  have h : t.kind = .ident := by simpa using h
  exact .advance_pure hc ht (by rw [h]; decide) (Laid.token .name ⟨t, rfl, h⟩ rfl)

/-- So is a number. -/
theorem runs_intLit : Runs src intLit fun l w => Laid l.node w := by
  refine fun c hc => .peek_bind hc fun t ht _ => .ite (fun h => ?_) fun _ => .failExpected hc
  refine .ite (fun hfits => ?_) fun _ => .failHere hc
  have hkind : t.kind ≠ .eof := fun heof => by simp [heof, TokenKind.isInteger] at h
  simp only [fitsLiteral, Bool.and_eq_true, decide_eq_true_eq] at hfits
  exact .advance_pure hc ht hkind
    (Laid.token .intLit ⟨t, rfl, h, hfits.1, by omega⟩ rfl)

/-- A bad escape lies inside the text. -/
theorem bound_of_decodeBody {skip n offset : Nat} {acc b bad : Bytes}
    (h : decodeBody skip n acc b = .error (offset, bad)) :
    b ≠ [] ∧ offset + bad.length ≤ n + b.length := by
  -- along the decoder; only its fourth case fails, at an escape that begins where it stands
  fun_induction decodeBody skip n acc b with
  | case1 => cases h
  | case2 n acc c r k ih =>
    have := (ih h).2
    refine ⟨List.cons_ne_nil c r, ?_⟩
    rw [List.length_cons]
    omega
  | case3 n acc c r hc x k hescape ih =>
    have := (ih h).2
    refine ⟨List.cons_ne_nil c r, ?_⟩
    rw [List.length_cons]
    omega
  | case4 n acc c r hc k hescape =>
    cases h
    refine ⟨List.cons_ne_nil c r, ?_⟩
    simp only [List.length_cons, List.length_take]
    omega
  | case5 n acc c r hc ih =>
    have := (ih h).2
    refine ⟨List.cons_ne_nil c r, ?_⟩
    rw [List.length_cons]
    omega

/-- A bad escape lies within its literal. -/
theorem bound_of_textLitValue {text : Bytes} {offset : Nat} {bad : Bytes}
    (h : textLitValue text = .error (offset, bad)) : offset + bad.length ≤ text.length := by
  obtain ⟨hne, hbound⟩ := bound_of_decodeBody h
  have hpos := List.length_pos_iff.mpr hne
  rw [List.length_take, List.length_drop] at hbound hpos
  omega

/-- A text is a node over its token, and its errors lie inside the token. -/
theorem runs_textLit : Runs src textLit fun l w => Laid l.node w := by
  refine fun c hc => .peek_bind hc fun t ht hcut => .ite (fun h => ?_) fun _ => .failExpected hc
  have h : t.kind = .textLit := by simpa using h
  split
  · next value hvalue =>
    exact .advance_pure hc ht (by rw [h]; decide)
      (Laid.token .textLit ⟨value, t, rfl, h, hvalue⟩ rfl)
  · next offset bad hbad =>
    -- a bad escape lies within the literal, and so within the source
    have hbound := bound_of_textLitValue hbad
    have hstop := hcut.bound
    refine .fail ⟨?_, (hcut.ofOffset_add (Nat.le_of_add_right_le hbound)).symm⟩
    simp only [Span.stop, Token.stop] at hstop ⊢
    omega

/-! ## §2 Names and constants -/

/-- What is left to show of a node whose tokens form a phrase: it goes from the first to the last of
them, and its parts lie among them. -/
structure Spans (n : Node) (w : List Token) : Prop where
  loc : w ≠ [] → n.loc = placeOf w
  parts : LaidIn n.parts w

/-- A node that spans a phrase of its kind is laid over it. -/
theorem Spans.laid {kind : NodeKind} {loc : Loc} {parts : List Node} {w : List Token}
    (h : Spans (.mk kind loc none parts) w) (hw : w ∈ kind.phrase) :
    Laid (.mk kind loc none parts) w :=
  .compound hw (h.loc (NodeKind.ne_nil_of_mem_phrase hw)) h.parts

/-- A separator leaves no node. -/
theorem runs_separator : Runs src separator fun _ _ => True := by
  refine (runs_accept .dot).bind fun b _ _ => ?_
  cases b with
  | true => exact .pure trivial
  | false => exact runs_accept .doubleColon

/-- A dotted name lies over its parts. -/
theorem runs_path : Runs src path fun p w => Laid p.node w := by
  have hspans : Runs src path fun p w => Spans p.node w := by
    refine Runs.located (P := fun (x : Tree.Ident × List Tree.Ident) w =>
      LaidIn ((x.1 :: x.2).map Tree.Ident.node) w) ?_ fun _ _ _ h hloc => ⟨hloc, h⟩
    refine .bind runs_ident fun first w hfirst => ?_
    -- the components behind the first one come last first
    refine (Runs.loop (I := fun parts w => LaidIn ((first :: parts.reverse).map Tree.Ident.node) w)
      (J := fun parts w => LaidIn ((first :: parts.reverse).map Tree.Ident.node) w)
      (s := []) (w := w) (fun parts w hw => ?_) ?_).bind fun more v hmore => ?_
    · refine (runs_separator.and_reads reads_separator).bind fun b v hv => ?_
      cases b with
      | false => exact .pure (hw.append_right _)
      | true =>
        refine .bind runs_ident fun part u hpart => .pure ⟨?_, ?_⟩
        · obtain ⟨-, h | h⟩ := hv
          · simp [Phrase.one_ne_nil v h]
          · simp [Phrase.one_ne_nil v h]
        · have := (hw.append_right v).append (LaidIn.singleton hpart)
          simpa using this
    · exact .singleton hfirst
    · refine .pure ?_
      rw [List.append_nil]
      exact hmore
  exact (hspans.and_reads reads_path).conseq fun _ _ h => h.1.laid h.2.1

/-- A constant is a token, or a dotted name. -/
theorem runs_constant? : Runs src constant? fun o w => ∀ k, o = some k → LaidIn k.nodes w := by
  refine fun c hc => .peek_bind hc fun t ht _ => ?_
  have hint : RunsAt src c (do return some (Tree.Constant.int (← intLit)))
      fun o w => ∀ k, o = some k → LaidIn k.nodes w := by
    refine (Runs.bind runs_intLit fun l w hw => .pure fun k hk => ?_) c hc
    cases hk
    exact (LaidIn.singleton hw).append_right []
  split
  · exact hint
  · exact hint
  · exact hint
  · split
    · refine RunsAt.advance.bind hc fun _ _ _ _ _ _ => .pure fun k hk => ?_
      cases hk
      exact .nil
    · exact .failHere hc
  · refine (Runs.bind runs_textLit fun l w hw => .pure fun k hk => ?_) c hc
    cases hk
    exact (LaidIn.singleton hw).append_right []
  -- the words that are values have no parts
  · have hword (k : Tree.Constant) (hk : k.nodes = []) :
        RunsAt src c (advance >>= fun _ => Pure.pure (some k))
          fun o w => ∀ k, o = some k → LaidIn k.nodes w := by
      refine RunsAt.advance.bind hc fun _ _ _ _ _ _ => .pure fun _ h => ?_
      cases h
      rw [hk]
      exact .nil
    refine .ite (fun _ => hword _ rfl) fun _ => .ite (fun _ => hword _ rfl) fun _ => ?_
    refine .ite (fun _ => hword _ rfl) fun _ => ?_
    refine (Runs.bind runs_path fun p w hw => .pure fun k hk => ?_) c hc
    cases hk
    exact (LaidIn.singleton hw).append_right []
  · exact .pure nofun

/-- A value lies over its constant. -/
theorem runs_value? : Runs src value? fun o w => ∀ v, o = some v → Laid v.node w := by
  have hspans : Runs src value? fun o w => ∀ v, o = some v → Spans v.node w := by
    refine .located runs_constant? fun loc o w h hloc v hv => ?_
    obtain ⟨k, hk, rfl⟩ := Option.map_eq_some_iff.mp hv
    exact ⟨hloc, h k hk⟩
  refine (hspans.and_reads reads_value?).conseq fun o w h v hv => ?_
  obtain ⟨hspans, htook⟩ := h
  subst hv
  exact (hspans v rfl).laid htook

/-- The same when it has to be there. -/
theorem runs_value : Runs src value fun v w => Laid v.node w := by
  refine .bind runs_value? fun o w h => ?_
  cases o with
  | none => exact .failExpected
  | some v =>
    refine .pure ?_
    rw [List.append_nil]
    exact h v rfl

/-! ## §3 Annotations -/

/-- An argument lies over its key and its value. -/
theorem runs_arg? : Runs src arg? fun o w => ∀ a, o = some a → Laid a.node w := by
  -- its parts first; that the tokens form an argument was proved of what is read
  have hspans : Runs src arg? fun o w => ∀ a, o = some a → Spans a.node w := by
    refine Runs.located (P := fun (o : Option Tree.ArgForm) w =>
      ∀ f, o = some f → LaidIn f.nodes w) ?_ fun loc o w h hloc a ha => ?_
    · refine Runs.peek_bind fun t _ => .ite (fun _ => ?_) fun _ => ?_
      · -- a key, with a value behind an equals sign if there is one
        refine .bind runs_ident fun key w hkey => (runs_accept .eq).bind fun b e _ => ?_
        cases b with
        | true =>
          refine .bind runs_value fun v u hv => .pure fun f hf => ?_
          cases hf
          rw [List.append_nil]
          exact (LaidIn.singleton hkey).append ((LaidIn.singleton hv).append_left e)
        | false =>
          refine .pure fun f hf => ?_
          cases hf
          exact (LaidIn.singleton hkey).append_right _
      · refine .bind runs_value? fun o w h => .pure fun f hf => ?_
        obtain ⟨v, hv, rfl⟩ := Option.map_eq_some_iff.mp hf
        exact (LaidIn.singleton (h v hv)).append_right _
    · obtain ⟨f, hf, rfl⟩ := Option.map_eq_some_iff.mp ha
      exact ⟨hloc, h f hf⟩
  refine (hspans.and_reads reads_arg?).conseq fun o w h a ha => ?_
  obtain ⟨hspans, htook⟩ := h
  subst ha
  exact (hspans a rfl).laid htook

/-- Arguments lie one behind the other. -/
theorem runs_args : Runs src args fun l w => LaidIn (l.map Tree.Arg.node) w := by
  refine (Runs.loop (I := fun acc w => LaidIn (acc.reverse.map Tree.Arg.node) w)
    (J := fun acc w => LaidIn (acc.reverse.map Tree.Arg.node) w) (w := [])
    (fun acc w hw => ?_) .nil).bind fun acc w hw => .pure ?_
  · refine (runs_accept .closeParen).bind fun b u _ => ?_
    cases b with
    | true => exact .pure (hw.append_right _)
    | false =>
      refine (runs_arg?.and_reads reads_arg?).bind fun o v h => ?_
      obtain ⟨hlaid, htook⟩ := h
      cases o with
      -- no further argument: the parenthesis has to close
      | none => exact (runs_sigil .closeParen).bind fun _ _ _ => .pure (hw.append_right _)
      | some a =>
        -- the argument read lies behind those before it
        have hmore : LaidIn ((a :: acc).reverse.map Tree.Arg.node) (w ++ (u ++ v)) := by
          have := hw.append ((LaidIn.singleton (hlaid a rfl)).append_left u)
          simpa using this
        have hgrow (x : List Token) :
            LaidIn ((a :: acc).reverse.map Tree.Arg.node) (w ++ (u ++ (v ++ x))) := by
          have := hmore.append_right x
          simpa only [List.append_assoc] using this
        refine (runs_accept .comma).bind fun b x _ => ?_
        cases b with
        | true =>
          refine .pure ⟨?_, hgrow _⟩
          simp [Phrase.arg_ne_nil v htook]
        | false => exact (runs_sigil .closeParen).bind fun _ _ _ => .pure (hgrow _)
  · simpa using hw

/-- An annotation lies over its name and its arguments. -/
theorem runs_annot : Runs src annot fun a w => Laid a.node w := by
  have hspans : Runs src annot fun a w => Spans a.node w := by
    refine Runs.located (P := fun (x : Tree.Path × Option (List Tree.Arg)) w =>
      LaidIn (x.1.node :: (x.2.getD []).map Tree.Arg.node) w) ?_ fun _ _ _ h hloc => ⟨hloc, h⟩
    refine (runs_sigil .atSign).bind fun _ u _ => .bind runs_path fun name v hname => ?_
    refine (runs_accept .openParen).bind fun b x _ => ?_
    -- the signs in front and behind widen the tokens, and hold no node
    have hend (args? : Option (List Tree.Arg)) {y : List Token}
        (hy : LaidIn ((args?.getD []).map Tree.Arg.node) y) (z : List Token) :
        LaidIn (name.node :: (args?.getD []).map Tree.Arg.node)
          (u ++ (v ++ (x ++ (y ++ (z ++ []))))) := by
      have := ((LaidIn.singleton hname).append ((hy.append_right z).append_left x)).append_left u
      simpa using this
    cases b with
    | true =>
      refine (Runs.map runs_args (R := fun o w => LaidIn ((o.getD []).map Tree.Arg.node) w)
        fun _ _ h => h).bind fun args? y hy => ?_
      exact (runs_accept .semicolon).bind fun _ z _ => .pure (hend args? hy z)
    | false =>
      refine (Runs.pure (Q := fun o w => LaidIn ((o.getD []).map Tree.Arg.node) w)
        .nil).bind fun args? y hy => ?_
      exact (runs_accept .semicolon).bind fun _ z _ => .pure (hend args? hy z)
  exact (hspans.and_reads reads_annot).conseq fun _ _ h => h.1.laid h.2

/-- No annotation waits, or the first one is reported. -/
theorem RunsAt.noPending_bind {l : List Tree.Annot} {k : Unit → Grammar α}
    {Q : α → List Token → Prop} (h : ∀ a ∈ l, a.loc.Within src)
    (hk : l = [] → RunsAt src c (k ()) Q) : RunsAt src c (noPending l >>= k) Q := by
  cases l with
  | nil => exact hk rfl
  | cons a r => exact .error (h a (List.mem_cons_self ..))

/-! ## §4 Messages -/

/-- A type lies over its name. -/
theorem runs_typeRef : Runs src typeRef fun r w => Laid r.node w := by
  have hspans : Runs src typeRef fun r w => Spans r.node w := by
    refine Runs.located (P := fun (name : Tree.Path) w => LaidIn [name.node] w) ?_
      fun _ _ _ h hloc => ⟨hloc, h⟩
    refine Runs.peek_bind fun t hcut => ?_
    split
    · split
      · exact .failUnsupported
      · refine .bind runs_path fun name w hname => .peek_bind fun next _ => ?_
        -- two constructs are refused behind a name, at the name and at the next token
        refine .ite (fun _ => .fail (hcut.atToken _)) fun _ => ?_
        refine .ite (fun _ => .failUnsupported) fun _ => .pure ?_
        exact (LaidIn.singleton hname).append_right _
    · exact .failUnsupported
    · exact .failExpected
  exact (hspans.and_reads reads_typeRef).conseq fun _ _ h => h.1.laid h.2

/-- A label is a node over its keyword. -/
theorem runs_label? : Runs src label? fun o w => LaidIn (o.toList.map Tree.Label.node) w := by
  -- what is read is the keyword of the label; that errors are in place is separate
  have hlaid : Reads label? fun o w => LaidIn (o.toList.map Tree.Label.node) w := by
    refine fun c hc => .peek_bind fun t ht => ?_
    have hlabel (p : Tree.Presence) (h : t.isWord (Tree.Outline.labelWord p) = true) :
        LaidIn ((some (Tree.Label.mk t.loc p)).toList.map Tree.Label.node) [t] := by
      refine .singleton (Laid.token .keyword ?_ ?_)
      · cases p with
        | optional => exact .inl ⟨t, rfl, h⟩
        | required => exact .inr ⟨t, rfl, h⟩
      · exact beq_iff_eq.mp (Bool.and_eq_true_iff.mp h).2
    refine .acceptWord_bind ht (fun h => ?_) fun _ => ?_
    · exact .advance_pure hc ht (kind_ne_eof_of_isWord h) (hlabel .optional h)
    refine .acceptWord_bind ht (fun h => ?_) fun _ => ?_
    · exact .advance_pure hc ht (kind_ne_eof_of_isWord h) (hlabel .required h)
    · exact .pure .nil
  have hruns : Runs src label? fun _ _ => True := by
    refine Runs.peek_bind fun t _ => (runs_acceptWord _).bind fun b _ _ => ?_
    cases b with
    | true => exact .pure trivial
    | false =>
      refine (runs_acceptWord _).bind fun b _ _ => ?_
      cases b with
      | true => exact .pure trivial
      | false => exact .pure trivial
  exact (hruns.and_reads hlaid).conseq fun _ _ h => h.2

/-- A field, with the annotations in front of it. -/
theorem runs_field (annots : List Tree.Annot) :
    Runs src (field annots) fun d w => Spans d.node w ∧ d.annots = annots := by
  refine Runs.located (P := fun (x : Option Tree.Label × Tree.TypeRef × Tree.Ident × Bool
    × Option Tree.IntLit) w => LaidIn (x.1.toList.map Tree.Label.node
      ++ (x.2.1.node :: x.2.2.1.node :: x.2.2.2.2.toList.map Tree.IntLit.node)) w) ?_
    fun _ _ _ h hloc => ⟨⟨hloc, h⟩, rfl⟩
  refine .bind runs_label? fun o l hl => (runs_atWord _).bind fun b x _ => ?_
  refine .ite (fun _ => .failUnsupported) fun _ => ?_
  refine .bind runs_typeRef fun type u htype => .bind runs_ident fun name v hname => ?_
  refine (runs_accept _).bind fun question q _ => (runs_accept _).bind fun b e _ => ?_
  -- from the end of the number on
  have hend (number : Option Tree.IntLit) {i : List Token}
      (hi : LaidIn (number.toList.map Tree.IntLit.node) i) :
      Runs src (do
        if (← peek).kind == .openSquare then failUnsupported .fieldOptions
        else
          sigil .semicolon
          return (o, type, name, question, number))
        fun y z => LaidIn (y.1.toList.map Tree.Label.node
          ++ (y.2.1.node :: y.2.2.1.node :: y.2.2.2.2.toList.map Tree.IntLit.node))
            (l ++ (x ++ (u ++ (v ++ (q ++ (e ++ (i ++ z))))))) := by
    refine .peek_bind fun _ _ => .ite (fun _ => .failUnsupported) fun _ => ?_
    refine (runs_sigil .semicolon).bind fun _ s _ => .pure ?_
    refine hl.append (LaidIn.append_left ?_ x)
    refine (LaidIn.singleton htype).append ((LaidIn.singleton hname).append ?_)
    exact ((hi.append_right (s ++ [])).append_left e).append_left q
  cases b with
  | true =>
    exact (Runs.map runs_intLit (R := fun o w => LaidIn (o.toList.map Tree.IntLit.node) w)
      fun _ _ h => .singleton h).bind fun number i hi => hend number hi
  | false =>
    exact (Runs.pure (Q := fun o w => LaidIn (o.toList.map Tree.IntLit.node) w) .nil).bind
      fun number i hi => hend number hi

/-- A field lies behind its annotations. -/
theorem runs_messageMember (annots : List Tree.Annot) :
    Runs src (messageMember annots)
      fun d w => w ≠ [] ∧ ∃ n, d.nodes = annots.map Tree.Annot.node ++ [n] ∧ Laid n w := by
  -- the field alone, before its annotations are put in front
  have hspans : Runs src (messageMember annots)
      fun d w => Spans d.node w ∧ d.annots = annots := by
    refine Runs.peek_bind fun t _ => ?_
    split
    · split
      · exact .failUnsupported
      · exact runs_field annots
    · exact .failUnsupported
    · exact .failExpected
  refine (hspans.and_reads (reads_messageMember annots)).conseq fun d w h => ?_
  obtain ⟨⟨hd, rfl⟩, hw⟩ := h
  exact ⟨Phrase.field_ne_nil w hw, d.node, rfl, hd.laid hw⟩

/-- A body, whose members are nodes behind the annotations in front of them. -/
theorem runs_body {member : List Tree.Annot → Grammar α} {nodes : α → List Node}
    (hmember : ∀ annots, Runs src (member annots)
      fun m w => w ≠ [] ∧ ∃ n, nodes m = annots.map Tree.Annot.node ++ [n] ∧ Laid n w) :
    Runs src (body member) fun l w => LaidIn (l.flatMap nodes) w := by
  refine (runs_sigil .openCurl).bind fun _ u _ => ?_
  -- the annotations that wait lie behind all members that have been read
  refine (Runs.loop
    (I := fun (s : Members α) w => LaidIn (s.done.reverse.flatMap nodes
      ++ s.pending.reverse.map Tree.Annot.node) w ∧ ∀ a ∈ s.pending, a.loc.Within src)
    (J := fun s w => LaidIn (s.done.reverse.flatMap nodes) w) (s := {}) (w := [])
    (fun s w h => ?_) ⟨.nil, nofun⟩).bind fun s w hw => .pure ?_
  · obtain ⟨hlaid, hpending⟩ := h
    refine fun c hc => .peek_bind hc fun t ht _ => ?_
    split
    · have hnone : ∀ a ∈ s.pending.reverse, a.loc.Within src :=
        fun a ha => hpending a (List.mem_reverse.mp ha)
      refine .noPending_bind hnone fun hnil => RunsAt.advance.bind hc fun _ x _ _ _ _ => .pure ?_
      rw [hnil, List.map_nil, List.append_nil] at hlaid
      exact hlaid.append_right _
    · refine ((runs_annot c hc).cut hc).bind hc fun a v d hd _ h => .pure ?_
      obtain ⟨ha, hcut⟩ := h
      rw [List.append_nil]
      refine ⟨ha.ne_nil, ?_, List.forall_mem_cons.mpr ⟨?_, hpending⟩⟩
      · have := hlaid.append (LaidIn.singleton ha)
        simpa using this
      · exact (show a.loc = placeOf v from ha.loc_eq) ▸ within_placeOf hcut
    · next hkind =>
      refine .advance_pure hc ht (by rw [hkind]; decide) ⟨by simp, ?_, hpending⟩
      exact hlaid.append_right [t]
    · refine (hmember s.pending.reverse c hc).bind hc fun m v d hd _ h => .pure ?_
      obtain ⟨hne, n, hnodes, hn⟩ := h
      rw [List.append_nil]
      refine ⟨hne, ?_, nofun⟩
      have := hlaid.append (LaidIn.singleton hn)
      simpa [hnodes] using this
  · rw [List.append_nil]
    exact (show LaidIn (s.done.reverse.flatMap nodes) w from hw).append_left u

/-- A message spans its tokens. -/
theorem runs_message (annots : List Tree.Annot) :
    Runs src (message annots) fun m w => Spans m.node w ∧ m.annots = annots := by
  refine Runs.located (P := fun (x : Tree.Ident × List Tree.Field) w =>
    LaidIn (x.1.node :: x.2.flatMap Tree.Field.nodes) w) ?_ fun _ _ _ h hloc => ⟨⟨hloc, h⟩, rfl⟩
  refine fun c hc => RunsAt.advance.bind hc fun _ u d hd _ _ => ?_
  refine (Runs.bind runs_ident fun name v hname => ?_) d hd
  refine (runs_body runs_messageMember).bind fun fields w hw => .pure ?_
  rw [List.append_nil]
  exact ((LaidIn.singleton hname).append hw).append_left u

/-! ## §5 Services -/

/-- A parameter lies over its type. -/
theorem runs_parameter :
    Runs src parameter fun o w => LaidIn (o.toList.map Tree.TypeRef.node) w := by
  refine (runs_accept _).bind fun b u _ => ?_
  cases b with
  | true => exact .pure .nil
  | false =>
    refine .bind runs_typeRef fun type v htype => ?_
    refine (runs_sigil .closeParen).bind fun _ x _ => .pure ?_
    exact ((LaidIn.singleton htype).append_right _).append_left u

/-- The input of a method. -/
theorem runs_methodInput :
    Runs src methodInput fun o w => LaidIn (o.toList.map Tree.TypeRef.node) w := by
  refine (runs_accept _).bind fun b u _ => ?_
  cases b with
  | true => exact .conseq runs_parameter fun _ _ h => h.append_left u
  | false =>
    refine .peek_bind fun t _ => .ite (fun _ => ?_) fun _ => .pure .nil
    exact .map runs_typeRef fun _ _ h => (LaidIn.singleton h).append_left u

/-- The answer of a method. -/
theorem runs_methodOutput :
    Runs src methodOutput fun o w => LaidIn (o.toList.map Tree.TypeRef.node) w := by
  have hmark : Runs src outputMark fun _ _ => True := by
    refine (runs_acceptWord _).bind fun b _ _ => ?_
    cases b with
    | true => exact .pure trivial
    | false => exact runs_accept _
  refine hmark.bind fun b u _ => ?_
  cases b with
  | false => exact .pure .nil
  | true =>
    refine (runs_accept _).bind fun b v _ => ?_
    cases b with
    -- in parentheses
    | true => exact .conseq runs_parameter fun _ _ h => (h.append_left v).append_left u
    | false =>
      -- bare
      refine .map runs_typeRef fun _ _ h => ?_
      exact ((LaidIn.singleton h).append_left v).append_left u

/-- The end of a method leaves no node. -/
theorem runs_methodEnd : Runs src methodEnd fun _ _ => True := by
  refine (runs_accept _).bind fun b u _ => ?_
  cases b with
  | false => exact runs_sigil _
  | true =>
    -- the semicolons between the brackets are part of no node
    refine Runs.loop (I := fun _ _ => True) (J := fun _ _ => True) (w := []) (fun _ w _ => ?_)
      trivial
    refine ((runs_accept .semicolon).and_reads (reads_accept (by decide))).bind fun b v hv => ?_
    cases b with
    | true =>
      refine .pure ⟨?_, trivial⟩
      rw [List.append_nil]
      exact Phrase.one_ne_nil v hv.2
    | false =>
      refine (runs_atWord _).bind fun b _ _ => .ite (fun _ => .failUnsupported) fun _ => ?_
      exact (runs_sigil _).bind fun _ _ _ => .pure trivial

/-- A method spans its tokens. -/
theorem runs_method (annots : List Tree.Annot) :
    Runs src (method annots) fun m w => Spans m.node w ∧ m.annots = annots := by
  refine Runs.located (P := fun (x : Tree.Ident × Option Tree.TypeRef × Option Tree.TypeRef) w =>
    LaidIn (x.1.node
      :: (x.2.1.toList.map Tree.TypeRef.node ++ x.2.2.toList.map Tree.TypeRef.node)) w)
    ?_ fun _ _ _ h hloc => ⟨⟨hloc, h⟩, rfl⟩
  refine fun c hc => RunsAt.advance.bind hc fun _ u d hd _ _ => ?_
  refine (Runs.bind runs_ident fun name v hname =>
    .bind runs_methodInput fun input x hinput => ?_) d hd
  refine .bind runs_methodOutput fun output y houtput => .bind runs_methodEnd fun _ z _ => .pure ?_
  -- the types stand behind the name, in this order
  have hrest := hinput.append (houtput.append_right (z ++ []))
  exact ((LaidIn.singleton hname).append hrest).append_left u

/-- A method lies behind its annotations. -/
theorem runs_serviceMember (annots : List Tree.Annot) :
    Runs src (serviceMember annots)
      fun m w => w ≠ [] ∧ ∃ n, m.nodes = annots.map Tree.Annot.node ++ [n] ∧ Laid n w := by
  have hspans : Runs src (serviceMember annots)
      fun m w => Spans m.node w ∧ m.annots = annots := by
    refine ((runs_atWord _).and_reads (reads_atWord _)).bind fun b u hu => ?_
    -- nothing is read by the test for the word
    obtain rfl := hu.2
    refine .ite (fun _ => runs_method annots) fun _ => ?_
    refine (runs_atWord _).bind fun b _ _ => .ite (fun _ => .failUnsupported) fun _ => ?_
    exact (runs_atWord _).bind fun b _ _ => .ite (fun _ => .failUnsupported) fun _ => .failExpected
  refine (hspans.and_reads (reads_serviceMember annots)).conseq fun m w h => ?_
  obtain ⟨⟨hm, rfl⟩, hw⟩ := h
  exact ⟨Phrase.method_ne_nil w hw, m.node, rfl, hm.laid hw⟩

/-- A service spans its tokens. -/
theorem runs_service (annots : List Tree.Annot) :
    Runs src (service annots) fun s w => Spans s.node w ∧ s.annots = annots := by
  refine Runs.located (P := fun (x : Tree.Ident × List Tree.Method) w =>
    LaidIn (x.1.node :: x.2.flatMap Tree.Method.nodes) w) ?_ fun _ _ _ h hloc => ⟨⟨hloc, h⟩, rfl⟩
  refine fun c hc => RunsAt.advance.bind hc fun _ u d hd _ _ => ?_
  refine (Runs.bind runs_ident fun name v hname => ?_) d hd
  refine (runs_body runs_serviceMember).bind fun methods w hw => .pure ?_
  rw [List.append_nil]
  exact ((LaidIn.singleton hname).append hw).append_left u

/-! ## §6 Files -/

/-- The package spans its tokens. -/
theorem runs_package : Runs src package fun p w => Spans p.node w := by
  refine Runs.located (P := fun (name : Tree.Path) w => LaidIn [name.node] w) ?_
    fun _ _ _ h hloc => ⟨hloc, h⟩
  refine fun c hc => RunsAt.advance.bind hc fun _ u d hd _ _ => ?_
  refine (Runs.bind runs_path fun name v hname => (runs_sigil _).bind fun _ x _ => .pure ?_) d hd
  exact ((LaidIn.singleton hname).append_right _).append_left u

/-- The version is the text of its statement. -/
theorem runs_version : Runs src version fun l w => LaidIn [l.node] w := by
  refine fun c hc => RunsAt.advance.bind hc fun _ u d hd _ _ => ?_
  refine ((runs_sigil _).bind fun _ e _ c₁ hc₁ => ?_) d hd
  refine ((runs_textLit c₁ hc₁).cut hc₁).bind hc₁ fun l v c₂ hc₂ _ h => ?_
  obtain ⟨hl, hcut⟩ := h
  refine ((runs_sigil _).bind fun _ x _ => .ite (fun _ => .pure ?_) fun _ => .fail ?_) c₂ hc₂
  · exact (((LaidIn.singleton hl).append_right _).append_left e).append_left u
  · exact (show l.loc = placeOf v from hl.loc_eq) ▸ within_placeOf hcut

/-- A setting spans its tokens. -/
theorem runs_setting : Runs src setting fun s w => Spans s.node w := by
  refine Runs.located (P := fun (x : Tree.Path × Tree.Value) w => LaidIn [x.1.node, x.2.node] w) ?_
    fun _ _ _ h hloc => ⟨hloc, h⟩
  refine fun c hc => RunsAt.advance.bind hc fun _ u d hd _ _ => ?_
  refine (Runs.bind runs_path fun name v hname => (runs_sigil _).bind fun _ e _ => ?_) d hd
  refine .bind runs_value fun value x hvalue => (runs_sigil _).bind fun _ y _ => .pure ?_
  have hrest := (LaidIn.singleton hvalue).append_right (y ++ [])
  exact ((LaidIn.singleton hname).append (hrest.append_left e)).append_left u

/-- The file that has been read so far. -/
def Draft.toFile (d : Draft) (loc : Loc) : Tree.File :=
  ⟨loc, d.version, d.package, d.options.reverse, d.decls.reverse⟩

/-- What has been read of a file lies over its tokens, the annotations that wait behind the rest. -/
structure DraftLaid (src : Bytes) (d : Draft) (w : List Token) : Prop where
  parts : ∃ l, (∀ loc, (d.toFile loc).ConsistsOf l)
    ∧ LaidIn (l.flatMap Tree.Statement.nodes ++ d.pending.reverse.map Tree.Annot.node) w
  pending : ∀ a ∈ d.pending, a.loc.Within src

namespace DraftLaid

variable {d d' : Draft} {v w : List Token}

/-- Tokens read later stand behind. -/
theorem append_right (h : DraftLaid src d w) (v : List Token) : DraftLaid src d (w ++ v) := by
  obtain ⟨⟨l, hl, hlaid⟩, hpending⟩ := h
  exact ⟨⟨l, hl, hlaid.append_right v⟩, hpending⟩

/-- Another annotation waits. -/
theorem annot (h : DraftLaid src d w) {a : Tree.Annot} (ha : Laid a.node v)
    (hwithin : a.loc.Within src) :
    DraftLaid src { d with pending := a :: d.pending } (w ++ v) := by
  obtain ⟨⟨l, hl, hlaid⟩, hpending⟩ := h
  refine ⟨⟨l, hl, ?_⟩, List.forall_mem_cons.mpr ⟨hwithin, hpending⟩⟩
  have := hlaid.append (LaidIn.singleton ha)
  simpa using this

/-- A declaration takes the annotations in front of it. -/
theorem decl (h : DraftLaid src d w) {x : Tree.Decl} {n : Node}
    (hnodes : x.nodes = d.pending.reverse.map Tree.Annot.node ++ [n]) (hn : Laid n v) :
    DraftLaid src { d with decls := x :: d.decls, pending := [] } (w ++ v) := by
  obtain ⟨⟨l, hl, hlaid⟩, hpending⟩ := h
  refine ⟨⟨l ++ [.decl x], fun loc => ?_, ?_⟩, nofun⟩
  · have := (hl loc).concat_decl x
    simpa only [Draft.toFile, List.reverse_cons] using this
  · have := hlaid.append (LaidIn.singleton hn)
    simpa [Tree.Statement.nodes, hnodes] using this

/-- Another statement, where no annotation waits. -/
theorem other (h : DraftLaid src d w) (hnone : d.pending = []) {x : Tree.Statement}
    (hpending : d'.pending = d.pending) (hx : LaidIn x.nodes v)
    (hd' : ∀ loc l, (d.toFile loc).ConsistsOf l → (d'.toFile loc).ConsistsOf (l ++ [x])) :
    DraftLaid src d' (w ++ v) := by
  obtain ⟨⟨l, hl, hlaid⟩, -⟩ := h
  rw [hnone] at hpending
  refine ⟨⟨l ++ [x], fun loc => hd' loc l (hl loc), ?_⟩, by simp [hpending]⟩
  rw [hnone, List.reverse_nil, List.map_nil, List.append_nil] at hlaid
  have := hlaid.append hx
  simpa [hpending] using this

end DraftLaid

/-- A statement is added behind what was read. -/
theorem runs_statement {d : Draft} {w : List Token} (h : DraftLaid src d w) :
    Runs src (statement d) fun d' v => v ≠ [] ∧ DraftLaid src d' (w ++ v) := by
  -- in the order of the keywords; only a message and a service take the annotations that wait
  refine fun c hc => .peek_bind hc fun t ht hcut => .ite (fun hword => ?_) fun _ => ?_
  · refine ((runs_message _ c hc).and_reads (readsAt_message _ hc.proper ht hword)).bind hc
      fun m v _ _ _ hm => .pure ?_
    obtain ⟨⟨hspans, hannots⟩, hw, -⟩ := hm
    have hlaid : Laid m.node v := hspans.laid hw
    rw [List.append_nil]
    exact ⟨hlaid.ne_nil, h.decl (by rw [Tree.Decl.nodes, hannots]) hlaid⟩
  refine .ite (fun hword => ?_) fun _ => ?_
  · refine ((runs_service _ c hc).and_reads (readsAt_service _ hc.proper ht hword)).bind hc
      fun s v _ _ _ hs => .pure ?_
    obtain ⟨⟨hspans, hannots⟩, hw⟩ := hs
    have hlaid : Laid s.node v := hspans.laid hw
    rw [List.append_nil]
    exact ⟨hlaid.ne_nil, h.decl (by rw [Tree.Decl.nodes, hannots]) hlaid⟩
  have hwaiting : ∀ a ∈ d.pending.reverse, a.loc.Within src :=
    fun a ha => h.pending a (List.mem_reverse.mp ha)
  refine .noPending_bind hwaiting fun hnone => ?_
  have hnone : d.pending = [] := List.reverse_eq_nil_iff.mp hnone
  refine .ite (fun hword => ?_) fun _ => ?_
  -- a second package is refused at the word that begins it
  · refine ((runs_package c hc).and_reads (readsAt_package hc.proper ht hword)).bind hc
      fun p v _ _ _ hp => .ite (fun _ => .fail (hcut.atToken _)) fun hfirst => .pure ?_
    obtain ⟨hspans, hw, -⟩ := hp
    have hlaid : Laid p.node v := hspans.laid hw
    rw [List.append_nil]
    refine ⟨hlaid.ne_nil, h.other hnone (x := .package p) rfl (.singleton hlaid) ?_⟩
    exact fun loc l hl => hl.concat_package (Option.not_isSome_iff_eq_none.mp hfirst) p
  refine .ite (fun hword => ?_) fun _ => ?_
  · refine ((runs_version c hc).and_reads (readsAt_version hc.proper ht hword)).bind hc
      fun v x _ _ _ hv => .pure ?_
    obtain ⟨hlaid, hw⟩ := hv
    rw [List.append_nil]
    refine ⟨Phrase.version_ne_nil x hw, h.other hnone (x := .version v) rfl hlaid ?_⟩
    exact fun loc l hl => hl.concat_version v
  refine .ite (fun hword => ?_) fun _ => ?_
  · refine ((runs_setting c hc).and_reads (readsAt_setting hc.proper ht hword)).bind hc
      fun s v _ _ _ hs => .pure ?_
    obtain ⟨hspans, hw⟩ := hs
    have hlaid : Laid s.node v := hspans.laid hw
    rw [List.append_nil]
    refine ⟨hlaid.ne_nil, h.other hnone (x := .setting s) rfl (.singleton hlaid) ?_⟩
    intro loc l hl
    have := hl.concat_setting s
    simpa only [Draft.toFile, List.reverse_cons] using this
  refine .ite (fun _ => .failUnsupported hc) fun _ => ?_
  refine .ite (fun _ => .failUnsupported hc) fun _ => ?_
  exact .ite (fun _ => .failUnsupported hc) fun _ => .failExpected hc

/-- So is every step over the file. -/
theorem runs_fileStep {d : Draft} {w : List Token} (h : DraftLaid src d w) :
    Runs src (fileStep d) fun x v => if x.2 then v ≠ [] ∧ DraftLaid src x.1 (w ++ v)
      else DraftLaid src x.1 (w ++ v) := by
  refine fun c hc => .peek_bind hc fun t ht _ => ?_
  split
  · exact .pure (by simpa using h)
  · -- an annotation, kept for the declaration behind it
    refine ((runs_annot c hc).cut hc).bind hc fun a v _ _ _ ha => .pure ?_
    obtain ⟨ha, hcut⟩ := ha
    rw [List.append_nil]
    exact ⟨ha.ne_nil, h.annot ha ((show a.loc = placeOf v from ha.loc_eq) ▸ within_placeOf hcut)⟩
  · next hkind =>
    exact .advance_pure hc ht (by rw [hkind]; decide) ⟨by simp, h.append_right [t]⟩
  · refine ((runs_statement h).bind fun d' v hv => .pure ?_) c hc
    rw [List.append_nil]
    exact hv

/-- A file lies over its tokens. -/
theorem runsAt_file {requirePackage : Bool} (hc : c.Clean src) :
    RunsAt src c (file requirePackage) fun f w => f.loc = placeOf c.rest
      ∧ ∃ l, f.ConsistsOf l ∧ LaidIn (l.flatMap Tree.Statement.nodes) w := by
  have hstart : DraftLaid src {} [] := ⟨⟨[], fun loc => .nil loc, .nil⟩, nofun⟩
  have hloop := Runs.loop (I := DraftLaid src) (J := DraftLaid src)
    (fun d w hd => runs_fileStep hd) hstart c hc
  have hall : ReadsAt c (loop fileStep {}) fun _ w => w = c.rest := by
    intro d c' h
    have hnil : Drafted {} [] := ⟨Language.nil_mem_kstar _, nofun, nofun⟩
    obtain ⟨w, hrest, hending, -⟩ := Reads.loop (I := Drafted) (J := Drafted)
      (fun d w hd => reads_fileStep hd) hnil c hc.proper h
    refine ⟨w, hrest, hending, ?_⟩
    rw [hrest, (eof_of_loop hc.proper h).1, List.append_nil]
  -- the position at which the file starts is kept for its place
  refine .get_bind ((hloop.and_reads hall).bind_stop hc fun d w c₁ hc₁ _ hstop hd => ?_)
  obtain ⟨⟨⟨l, hl, hlaid⟩, hpending⟩, rfl⟩ := hd
  refine .noPending_bind (fun a ha => hpending a (List.mem_reverse.mp ha)) fun hnone => ?_
  refine .peek_bind hc₁ fun eof _ heof => .ite (fun _ => .fail heof.within) fun _ => ?_
  refine .get_bind (.pure ⟨?_, l, hl _, ?_⟩)
  · -- the place begins with the first token, if there is one
    obtain ⟨rest, ending, stop⟩ := c
    cases rest with
    | nil => rfl
    | cons t r =>
      dsimp only [Draft.toFile, placeOf]
      rw [hstop, stopFrom_cons]
  · rw [hnone, List.map_nil, List.append_nil] at hlaid
    exact hlaid.append_right []

end Grammar

end Idl
