import Idl.Proofs.Grammar.Completeness
import Idl.Proofs.Grammar.Written
import Idl.Proofs.Tree.Layout

/-!
# Outcomes of the grammar

`Runs src p Q` says how the piece of grammar `p` ends on tokens of the source `src`: with an error
that points into the source, or with a result that satisfies `Q` together with the tokens that were
consumed, the last of which is where the reading has got to.

* §1 outcomes, §2 rules.
-/

namespace Idl

variable {src : Bytes}

/-! ## §1 Outcomes -/

/-- A position in tokens of the source. -/
structure Cursor.Clean (src : Bytes) (c : Cursor) : Prop where
  proper : c.Proper
  cut : ∀ t ∈ c.rest, Reader.Cut src t
  eof : ∀ t, c.ending = .ok t → Reader.Cut src t
  error : ∀ e, c.ending = .error e → e.Within src

theorem Cursor.Clean.next {c d : Cursor} {w : List Token} (hc : c.Clean src)
    (hrest : c.rest = w ++ d.rest) (hending : d.ending = c.ending) : d.Clean src where
  proper := hc.proper.next hrest hending
  cut t ht := hc.cut t (by rw [hrest]; exact List.mem_append_right _ ht)
  eof t ht := hc.eof t (hending ▸ ht)
  error e he := hc.error e (hending ▸ he)

/-- A place that goes from token to token lies within the source. -/
theorem within_placeOf {w : List Token} (h : ∀ t ∈ w, Reader.Cut src t) :
    (placeOf w).Within src := by
  cases w with
  | nil => exact ⟨Nat.zero_le _, rfl⟩
  | cons t r =>
    have hfirst := h t (List.mem_cons_self ..)
    -- the place ends where its last token does
    have hlast : stopFrom t.stop r ≤ src.length := by
      rcases List.eq_nil_or_concat r with rfl | ⟨r, u, rfl⟩
      · exact hfirst.bound
      · rw [List.concat_eq_append, stopFrom_append]
        exact (h u (by simp)).bound
    have hstart := hfirst.bound
    refine ⟨?_, hfirst.pos⟩
    simp only [Token.stop, placeOf, Span.between, Span.stop] at *
    omega

namespace Grammar

variable {α β σ : Type} {c : Cursor}

/-- The outcome of a piece of grammar at a position. -/
inductive Ran (src : Bytes) (c : Cursor) (Q : α → List Token → Prop) :
    Except SyntaxError (α × Cursor) → Prop where
  | error {e : SyntaxError} (within : e.Within src) : Ran src c Q (.error e)
  | ok {a : α} {d : Cursor} {w : List Token} (rest : c.rest = w ++ d.rest)
      (ending : d.ending = c.ending) (stop : d.stop = stopFrom c.stop w) (result : Q a w) :
      Ran src c Q (.ok (a, d))

/-- How a piece of grammar ends at a position. -/
def RunsAt (src : Bytes) (c : Cursor) (p : Grammar α) (Q : α → List Token → Prop) : Prop :=
  Ran src c Q (p c)

/-- How a piece of grammar ends anywhere in the source. -/
def Runs (src : Bytes) (p : Grammar α) (Q : α → List Token → Prop) : Prop :=
  ∀ c : Cursor, c.Clean src → RunsAt src c p Q

/-! ## §2 Rules -/

/-- There is a next token, or an error in its place. -/
theorem peek_cases (hc : c.Clean src) :
    (∃ t, peek c = .ok (t, c) ∧ Reader.Cut src t)
      ∨ ∃ e : SyntaxError, peek c = .error e ∧ e.Within src := by
  obtain ⟨rest, ending, stop⟩ := c
  cases rest with
  | nil =>
    cases ending with
    | ok t => exact .inl ⟨t, rfl, hc.eof t rfl⟩
    | error e => exact .inr ⟨e, rfl, hc.error e rfl⟩
  | cons t r => exact .inl ⟨t, rfl, hc.cut t (List.mem_cons_self ..)⟩

namespace RunsAt

variable {P Q : α → List Token → Prop} {R : β → List Token → Prop} {t : Token}

theorem pure {a : α} (h : Q a []) : RunsAt src c (Pure.pure a) Q := .ok rfl rfl rfl h

theorem fail {e : SyntaxError} (h : e.Within src) : RunsAt src c (Grammar.fail e) Q := .error h

/-- Two parsers in a row, when the place of what was read matters. -/
theorem bind_stop {p : Grammar α} {k : α → Grammar β} (hc : c.Clean src) (hp : RunsAt src c p P)
    (hk : ∀ a w d, d.Clean src → c.rest = w ++ d.rest → d.stop = stopFrom c.stop w → P a w →
      RunsAt src d (k a) fun b v => R b (w ++ v)) :
    RunsAt src c (p >>= k) R := by
  unfold RunsAt at hp ⊢
  rw [bind_apply]
  cases hx : p c with
  | error e =>
    rw [hx] at hp
    cases hp with
    | error within => exact .error within
  | ok x =>
    rw [hx] at hp
    cases hp with
    | @ok a d w rest ending stop result =>
      have hk := hk a w d (hc.next rest ending) rest stop result
      unfold RunsAt at hk
      change Ran src c R (k a d)
      cases hy : k a d with
      | error e =>
        rw [hy] at hk
        cases hk with
        | error within => exact .error within
      | ok y =>
        rw [hy] at hk
        cases hk with
        | @ok b d' v rest' ending' stop' result' =>
          refine .ok (w := w ++ v) ?_ (ending'.trans ending) ?_ result'
          · -- what both have read, one behind the other
            rw [rest, rest', List.append_assoc]
          · rw [stop', stop, stopFrom_append]

theorem bind {p : Grammar α} {k : α → Grammar β} (hc : c.Clean src) (hp : RunsAt src c p P)
    (hk : ∀ a w d, d.Clean src → c.rest = w ++ d.rest → P a w →
      RunsAt src d (k a) fun b v => R b (w ++ v)) :
    RunsAt src c (p >>= k) R :=
  hp.bind_stop hc fun a w d hd hrest _ ha => hk a w d hd hrest ha

theorem conseq {p : Grammar α} (hp : RunsAt src c p P) (h : ∀ a w, P a w → Q a w) :
    RunsAt src c p Q := by
  unfold RunsAt at hp ⊢
  generalize p c = x at hp ⊢
  cases hp with
  | error within => exact .error within
  | ok rest ending stop result => exact .ok rest ending stop (h _ _ result)

/-- What is consumed is determined, so that it is also what is known to be read. -/
theorem and_reads {p : Grammar α} (hp : RunsAt src c p P) (hq : ReadsAt c p Q) :
    RunsAt src c p fun a w => P a w ∧ Q a w := by
  unfold RunsAt at hp ⊢
  cases hx : p c with
  | error e =>
    rw [hx] at hp
    cases hp with
    | error within => exact .error within
  | ok x =>
    obtain ⟨v, hrest, -, hv⟩ := hq hx
    rw [hx] at hp
    cases hp with
    | @ok a d w rest ending stop result =>
      -- both tell of one result, so they speak of the same tokens
      obtain rfl : w = v := List.append_cancel_right (rest.symm.trans hrest)
      exact .ok rest ending stop ⟨result, hv⟩

/-- The tokens that are consumed are cut from the source. -/
theorem cut {p : Grammar α} (hc : c.Clean src) (hp : RunsAt src c p P) :
    RunsAt src c p fun a w => P a w ∧ ∀ t ∈ w, Reader.Cut src t := by
  unfold RunsAt at hp ⊢
  generalize p c = x at hp ⊢
  cases hp with
  | error within => exact .error within
  | ok rest ending stop result =>
    refine .ok rest ending stop ⟨result, fun t ht => hc.cut t ?_⟩
    rw [rest]
    exact List.mem_append_left _ ht

theorem ite {b : Prop} [Decidable b] {p q : Grammar α} (hp : b → RunsAt src c p Q)
    (hq : ¬b → RunsAt src c q Q) : RunsAt src c (if b then p else q) Q := by
  split
  · exact hp ‹_›
  · exact hq ‹_›

theorem peek_bind {k : Token → Grammar α} (hc : c.Clean src)
    (hk : ∀ t, peek c = .ok (t, c) → Reader.Cut src t → RunsAt src c (k t) Q) :
    RunsAt src c (peek >>= k) Q := by
  rcases peek_cases hc with ⟨t, hpeek, ht⟩ | ⟨e, hpeek, he⟩
  · unfold RunsAt
    rw [bind_of_ok hpeek]
    exact hk t hpeek ht
  · unfold RunsAt
    rw [bind_apply, hpeek]
    exact .error he

theorem get_bind {k : Cursor → Grammar α} (hk : RunsAt src c (k c) Q) :
    RunsAt src c (get >>= k) Q := hk

theorem failHere {cause : Token → SyntaxCause} (hc : c.Clean src) :
    RunsAt src c (Grammar.failHere cause) Q :=
  peek_bind hc fun t _ ht => .fail (ht.atToken (cause t))

theorem failExpected {want : Expectation} (hc : c.Clean src) :
    RunsAt src c (Grammar.failExpected want) Q := failHere hc

theorem failUnsupported {feature : Feature} (hc : c.Clean src) :
    RunsAt src c (Grammar.failUnsupported feature) Q := failHere hc

/-- At most the next token is consumed. -/
theorem advance : RunsAt src c Grammar.advance fun _ _ => True := by
  obtain ⟨rest, ending, stop⟩ := c
  cases rest with
  | nil => exact .ok (w := []) rfl rfl rfl trivial
  | cons t r => exact .ok (w := [t]) rfl rfl rfl trivial

/-- The next token is consumed. -/
theorem advance_token (hc : c.Clean src) (ht : peek c = .ok (t, c)) (hkind : t.kind ≠ .eof) :
    RunsAt src c Grammar.advance fun _ w => w = [t] :=
  (advance.and_reads (.advance hc.proper ht hkind)).conseq fun _ _ h => h.2

/-- The next token is consumed and nothing else. -/
theorem advance_pure {a : α} (hc : c.Clean src) (ht : peek c = .ok (t, c)) (hkind : t.kind ≠ .eof)
    (h : Q a [t]) : RunsAt src c (Grammar.advance >>= fun _ => Pure.pure a) Q := by
  refine (advance_token hc ht hkind).bind hc fun _ w _ _ _ hw => pure ?_
  subst hw
  exact h

/-- The place that is added goes from the first to the last token that is consumed. -/
theorem located {p : Grammar α} {build : Loc → α → β} (hc : c.Clean src) (hp : RunsAt src c p P)
    (h : ∀ loc a w, P a w → (w ≠ [] → loc = placeOf w) → R (build loc a) w) :
    RunsAt src c (Grammar.located build p) R := by
  refine peek_bind hc fun t ht _ => ?_
  unfold RunsAt at hp ⊢
  rw [bind_apply]
  cases hx : p c with
  | error e =>
    rw [hx] at hp
    cases hp with
    | error within => exact .error within
  | ok x =>
    rw [hx] at hp
    cases hp with
    | @ok a d w rest ending stop result =>
      refine .ok rest ending stop (h _ a w result fun hne => ?_)
      obtain ⟨u, r, rfl⟩ := List.exists_cons_of_ne_nil hne
      obtain rfl := eq_of_peek ht rest
      -- the first token read is the one that was seen before
      change Loc.mk (.between t.start d.stop) t.pos = _
      rw [stop, stopFrom_cons]
      rfl

end RunsAt

namespace Runs

variable {P Q : α → List Token → Prop} {R : β → List Token → Prop}

theorem pure {a : α} (h : Q a []) : Runs src (Pure.pure a) Q := fun _ _ => .pure h

theorem fail {e : SyntaxError} (h : e.Within src) : Runs src (Grammar.fail e) Q :=
  fun _ _ => .fail h

theorem failHere {cause : Token → SyntaxCause} : Runs src (Grammar.failHere cause) Q :=
  fun _ hc => .failHere hc

theorem failExpected {want : Expectation} : Runs src (Grammar.failExpected want) Q := failHere

theorem failUnsupported {feature : Feature} : Runs src (Grammar.failUnsupported feature) Q :=
  failHere

theorem bind {p : Grammar α} {k : α → Grammar β} (hp : Runs src p P)
    (hk : ∀ a w, P a w → Runs src (k a) fun b v => R b (w ++ v)) : Runs src (p >>= k) R :=
  fun c hc => (hp c hc).bind hc fun a w d hd _ hw => hk a w hw d hd

theorem conseq {p : Grammar α} (hp : Runs src p P) (h : ∀ a w, P a w → Q a w) : Runs src p Q :=
  fun c hc => (hp c hc).conseq h

theorem map {p : Grammar α} {f : α → β} (hp : Runs src p P) (h : ∀ a w, P a w → R (f a) w) :
    Runs src (f <$> p) R := by
  rw [map_eq_pure_bind]
  exact hp.bind fun a w hw => pure (by simpa using h a w hw)

theorem and_reads {p : Grammar α} (hp : Runs src p P) (hq : Reads p Q) :
    Runs src p fun a w => P a w ∧ Q a w :=
  fun c hc => (hp c hc).and_reads (hq c hc.proper)

theorem ite {b : Prop} [Decidable b] {p q : Grammar α} (hp : b → Runs src p Q)
    (hq : ¬b → Runs src q Q) : Runs src (if b then p else q) Q :=
  fun c hc => .ite (hp · c hc) (hq · c hc)

theorem peek_bind {k : Token → Grammar α} (hk : ∀ t, Reader.Cut src t → Runs src (k t) Q) :
    Runs src (peek >>= k) Q :=
  fun c hc => .peek_bind hc fun t _ ht => hk t ht c hc

theorem located {p : Grammar α} {build : Loc → α → β} (hp : Runs src p P)
    (h : ∀ loc a w, P a w → (w ≠ [] → loc = placeOf w) → R (build loc a) w) :
    Runs src (Grammar.located build p) R :=
  fun c hc => (hp c hc).located hc h

/-- A loop, with an invariant of the state and of all that has been consumed. -/
theorem loop {step : σ → Grammar (σ × Bool)} {I J : σ → List Token → Prop}
    (hstep : ∀ s w, I s w → Runs src (step s) fun x v =>
      if x.2 then v ≠ [] ∧ I x.1 (w ++ v) else J x.1 (w ++ v))
    {s : σ} {w : List Token} (h : I s w) :
    Runs src (Grammar.loop step s) fun s' v => J s' (w ++ v) := by
  intro c hc
  -- on the tokens that are left; a step after which the loop goes on takes one
  induction hlen : c.rest.length using Nat.strongRecOn generalizing s w c with
  | ind n ih =>
    have hrun := hstep s w h c hc
    unfold RunsAt at hrun ⊢
    rw [Grammar.loop]
    cases hs : step s c with
    | error e =>
      rw [hs] at hrun
      cases hrun with
      | error within => exact .error within
    | ok x =>
      rw [hs] at hrun
      cases hrun with
      | @ok y d v rest ending stop result =>
        obtain ⟨s', more⟩ := y
        have hlength : c.rest.length = v.length + d.rest.length := by
          rw [rest, List.length_append]
        cases more with
        | false => exact .ok rest ending stop result
        | true =>
          obtain ⟨hne, hI⟩ : v ≠ [] ∧ I s' (w ++ v) := result
          have hpos : 0 < v.length := List.length_pos_iff.mpr hne
          dsimp only
          rw [if_pos (by simp; omega)]
          have hnext := ih d.rest.length (by omega) hI d (hc.next rest ending) rfl
          unfold RunsAt at hnext
          generalize Grammar.loop step s' d = z at hnext
          cases hnext with
          | error within => exact .error within
          | @ok s₂ d₂ u rest' ending' stop' result' =>
            refine .ok (w := v ++ u) ?_ (ending'.trans ending) ?_ ?_
            · rw [rest, rest', List.append_assoc]
            · rw [stop', stop, stopFrom_append]
            · rwa [← List.append_assoc]

end Runs

end Grammar

end Idl
