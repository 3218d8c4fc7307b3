import Idl.Proofs.Document.Textual

/-!
# Null references in documents

The entries of a document's lists, its types and its constants are references, and a text can hold a
null in place of each. Reading is compared with the walk that follows them one by one: where the walk
follows a null, and that it otherwise ends as the reading does.

* §1 which entries are null,
* §2 the walk agrees with `toSchema`, part by part, §3 where reading ends in a null.
-/

namespace Idl.Document

/-! ## §1 Null entries -/

/-- A list of annotations has a null among its entries, or among the pairs of an entry. -/
def AnnotsNull (l : List (Option Annot)) : Prop :=
  none ∈ l ∨ ∃ a : Annot, some a ∈ l ∧ none ∈ a.pairs

/-- Some list of a document has a null among its entries. -/
inductive NullEntry (d : Document) : Prop where
  | annot (h : AnnotsNull d.annots)
  | message (h : none ∈ d.messages)
  | messageAnnot (m : Message) (hm : some m ∈ d.messages) (h : AnnotsNull m.annots)
  | field (m : Message) (hm : some m ∈ d.messages) (h : none ∈ m.fields)
  | fieldAnnot (m : Message) (hm : some m ∈ d.messages) (f : Field) (hf : some f ∈ m.fields)
      (h : AnnotsNull f.annots)
  | service (h : none ∈ d.services)
  | serviceAnnot (s : Service) (hs : some s ∈ d.services) (h : AnnotsNull s.annots)
  | method (s : Service) (hs : some s ∈ d.services) (h : none ∈ s.methods)
  | methodAnnot (s : Service) (hs : some s ∈ d.services) (m : Method) (hm : some m ∈ s.methods)
      (h : AnnotsNull m.annots)

/-! ## §2 A walk agrees with reading -/

section Agreement

variable {α β γ δ ε : Type} {s s' : Option Fault} {null null' : Prop}

/-- How a walk ends that follows no null: a fault noted before stays, a fault of the reading is noted,
and otherwise what was built has no holes and is what the reading gives. -/
inductive Ends (tighten? : β → Option γ) :
    Option Fault → Except Fault γ → β → Option Fault → Prop where
  | kept (e : Fault) (r : Except Fault γ) (b : β) : Ends tighten? (some e) r b (some e)
  | noted {e : Fault} (h : e ≠ .missingEntry) (b : β) : Ends tighten? none (.error e) b (some e)
  | built {b : β} {c : γ} (h : tighten? b = some c) : Ends tighten? none (.ok c) b none

/-- From the state `s` a walk follows a null exactly if `null` holds, and otherwise ends as the
reading does. -/
structure Agrees (s : Option Fault) (null : Prop) (tighten? : β → Option γ) (w : Walk β)
    (r : Except Fault γ) : Prop where
  crash : null → w s = none
  safe : ¬ null → ∃ (b : β) (s' : Option Fault), w s = some (b, s') ∧ Ends tighten? s r b s'

variable {t : β → Option γ} {u : δ → Option ε} {w : Walk β} {r : Except Fault γ}

/-- What follows is entered with what the reading gave, unless there is a fault: then it does not
matter what the reading would have given. -/
theorem Ends.bind [Nonempty γ] {b : β} (h : Ends t s r b s') (f : γ → Except Fault ε) :
    ∃ c : γ, (s' = none → s = none ∧ t b = some c) ∧
      ∀ (d : δ) (s'' : Option Fault), Ends u s' (f c) d s'' → Ends u s (r >>= f) d s'' := by
  obtain ⟨c₀⟩ := ‹Nonempty γ›
  cases h with
  -- an error was noted before, and stays whatever comes
  | kept e =>
    refine ⟨c₀, by simp, fun d s'' hd => ?_⟩
    cases hd
    exact .kept e _ d
  -- an error is noted here, where the other side stops
  | noted he =>
    refine ⟨c₀, by simp, fun d s'' hd => ?_⟩
    cases hd
    exact .noted he d
  | built htight => exact ⟨_, fun _ => ⟨rfl, htight⟩, fun d s'' hd => hd⟩

theorem Agrees.congr_null (h : Agrees s null t w r) (hnull : null ↔ null') :
    Agrees s null' t w r := propext hnull ▸ h

theorem agrees_pure {b : β} {c : γ} (h : s = none → t b = some c) :
    Agrees s False t (pure b) (.ok c) where
  crash := False.elim
  safe := by
    intro _
    refine ⟨b, s, rfl, ?_⟩
    cases s with
    | none => exact .built (h rfl)
    | some e => exact .kept e _ b

/-- Two steps agree when each does; a null in either one crashes both. -/
theorem Agrees.bind [Nonempty γ] {k : β → Walk δ} {f : γ → Except Fault ε} (h : Agrees s null t w r)
    (hk : ∀ (s' : Option Fault) (b : β) (c : γ), (s' = none → s = none ∧ t b = some c) →
      Agrees s' null' u (k b) (f c)) :
    Agrees s (null ∨ null') u (w >>= k) (r >>= f) := by
  have hrun : (w >>= k) s = (w s).bind fun p => k p.1 p.2 := rfl
  by_cases hnull : null
  · refine ⟨fun _ => ?_, fun hn => absurd (.inl hnull) hn⟩
    rw [hrun, h.crash hnull, Option.bind_none]
  · obtain ⟨b, s', hw, hend⟩ := h.safe hnull
    -- the first step ends, so the second one goes on with what it built
    obtain ⟨c, hc, hthen⟩ := hend.bind (u := u) f
    have hlater := hk s' b c hc
    rw [hw, Option.bind_some] at hrun
    refine ⟨fun hn => hrun.trans (hlater.crash (hn.resolve_left hnull)), fun hn => ?_⟩
    obtain ⟨d, s'', hd, hends⟩ := hlater.safe (hn ∘ .inr)
    exact ⟨d, s'', hrun.trans hd, hthen d s'' hends⟩

/-- What was built may be put into something larger. -/
theorem Agrees.map {g : β → δ} {f : γ → ε} (h : Agrees s null t w r)
    (hg : ∀ (b : β) (c : γ), t b = some c → u (g b) = some (f c)) :
    Agrees s null u (do return g (← w)) (r.map f) where
  crash := by
    intro hnull
    change (w s).bind _ = none
    rw [h.crash hnull, Option.bind_none]
  safe := by
    intro hnull
    obtain ⟨b, s', hw, hend⟩ := h.safe hnull
    refine ⟨g b, s', ?_, ?_⟩
    · change (w s).bind _ = _
      rw [hw, Option.bind_some]
      rfl
    · -- an error stays, whatever is done to the value
      cases hend with
      | kept e => exact .kept e _ _
      | noted he => exact .noted he _
      | built htight => exact .built (hg _ _ htight)

/-- Reading something that is no reference. -/
theorem agrees_attempt (hr : r ≠ .error .missingEntry) :
    Agrees s False (fun b => b) (Walk.attempt r) r where
  crash := False.elim
  safe := by
    intro _
    cases s with
    | some e => exact ⟨none, some e, rfl, .kept e _ _⟩
    | none =>
      cases r with
      | ok c => exact ⟨some c, none, rfl, .built rfl⟩
      | error e => exact ⟨none, some e, rfl, .noted (fun he => hr (he ▸ rfl)) _⟩

/-- The same where a reading may also be left out. -/
theorem agrees_attempt_some (hr : r ≠ .error .missingEntry) :
    Agrees s False some (Walk.attempt r) (r.map some) := by
  have h : Agrees s False some (Walk.attempt r >>= pure) (r.map some) :=
    (agrees_attempt hr).map fun _ _ h => congrArg some h
  rwa [bind_pure] at h

/-- A null among the entries of a list is followed, and so is one inside an entry. -/
theorem agrees_entries [Nonempty γ] {w : α → Walk β} {f : α → Except Fault γ} {inside : α → Prop}
    (h : ∀ (s : Option Fault) (a : α), Agrees s (inside a) t (w a) (f a)) (l : List (Option α)) :
    Agrees s (none ∈ l ∨ ∃ a : α, some a ∈ l ∧ inside a) (List.mapM t) (Walk.entries w l)
      (entries f l) := by
  induction l generalizing s with
  | nil =>
    have hnil : Agrees s False (List.mapM t) (Walk.entries w []) (entries f []) :=
      agrees_pure fun _ => rfl
    exact hnil.congr_null (by simp)
  | cons r l ih =>
    unfold Walk.entries entries at ih ⊢
    rw [List.mapM_cons, List.mapM_cons]
    cases r with
    -- a null entry, at which the walk crashes
    | none => exact ⟨fun _ => rfl, fun hn => absurd (.inl List.mem_cons_self) hn⟩
    | some a =>
      refine Agrees.congr_null ((h s a).bind fun s₁ b c hb => ih.bind fun s₂ bs cs hbs =>
        agrees_pure fun hs => ?_) (by simp; grind)
      obtain ⟨hs₁, htail⟩ := hbs hs
      obtain ⟨-, hhead⟩ := hb hs₁
      simp [hhead, htail]

end Agreement

theorem placeOfText_ne (text : Bytes) : placeOfText text ≠ .error .missingEntry := by
  unfold placeOfText
  split
  · simp
  · split <;> simp

/-- A place is no reference, and neither is anything in it. -/
theorem agrees_walkPlace (s : Option Fault) (text : Bytes) :
    Agrees s False some (walkPlace text) (placeOfText text) := by
  have h := (agrees_attempt (s := s) (placeOfText_ne text)).map (u := some)
    (g := fun b => b.getD .unknown) (f := fun c => c) (by rintro _ c rfl; rfl)
  rwa [show (placeOfText text).map (fun c => c) = placeOfText text by
    cases placeOfText text <;> rfl] at h

theorem toSchema_type_ne (t : TypeName) : t.toSchema ≠ .error .missingEntry := by
  unfold TypeName.toSchema
  split
  · simp
  · split
    · split <;> simp
    · simp

theorem toSchema_value_ne (v : Value) : v.toSchema ≠ .error .missingEntry := by
  have hread {α : Type} (reader : Bytes) (r : Except ReadFault α) (f : α → Idl.Value) :
      (r.map f).mapError (Fault.badConstant reader v.text) ≠ .error .missingEntry := by
    cases r <;> simp [Except.map, Except.mapError]
  unfold Value.toSchema
  dsimp only
  repeat' split
  all_goals first | exact hread _ _ _ | simp

/-- A null in place of a type stands for no type. -/
theorem agrees_walkType (s : Option Fault) (t : Option TypeName) :
    Agrees s False some (walkType t) (typeToSchema? t) := by
  cases t with
  | none => exact agrees_pure fun _ => rfl
  | some t => exact agrees_attempt_some (toSchema_type_ne t)

/-- The type that a field has to have. -/
def fieldType (message : Bytes) (f : Field) : Except Fault Ty :=
  match f.type with
  | some t => t.toSchema
  | none => .error (.missingType message f.name)

/-- A null in place of a type is a fault of a field. -/
theorem agrees_walkFieldType (s : Option Fault) (message : Bytes) (f : Field) :
    Agrees s False (fun b => b) (walkFieldType message f) (fieldType message f) := by
  unfold walkFieldType fieldType
  cases f.type with
  | none =>
    refine ⟨False.elim, fun _ => ?_⟩
    cases s with
    | some e => exact ⟨none, some e, rfl, .kept e _ _⟩
    | none => exact ⟨none, some (.missingType message f.name), rfl, .noted (by simp) _⟩
  | some t =>
    refine ⟨False.elim, fun hn => ?_⟩
    obtain ⟨b, s', hw, hend⟩ := (agrees_attempt (s := s) (toSchema_type_ne t)).safe hn
    refine ⟨b, s', ?_, hend⟩
    change (Walk.attempt t.toSchema s).bind _ = _
    rw [hw, Option.bind_some]
    -- without a type there is a fault already, so that none is left to be noted
    generalize t.toSchema = r at hend
    cases hend with
    | kept e => cases b <;> rfl
    | noted he => cases b <;> rfl
    | built h => subst h; rfl

/-! Nothing of a kind is read once a fault is noted, but there is something of each kind. -/

instance : Nonempty Ty := ⟨.message []⟩
instance : Nonempty Idl.Value := ⟨.bool false⟩
instance : Nonempty Idl.Pair := ⟨[], .bool false⟩
instance : Nonempty Idl.Annot := ⟨[], none, []⟩
instance : Nonempty Idl.Field := ⟨[], .message [], false, 0, [], [], .unknown⟩
instance : Nonempty Idl.Message := ⟨[], [], [], [], .unknown⟩
instance : Nonempty Idl.Method := ⟨[], none, none, [], [], .unknown⟩
instance : Nonempty Idl.Service := ⟨[], [], [], [], .unknown, false, false, .zero, []⟩

/-- A null in place of the constant of a pair is a fault. -/
theorem agrees_walkPair (s : Option Fault) (p : Pair) :
    Agrees s False LoosePair.tighten? (walkPair p) p.toSchema := by
  have hpair {r : Except Fault Idl.Value} (hr : r ≠ .error .missingEntry) :
      Agrees s False LoosePair.tighten? (do return ⟨p.key, ← Walk.attempt r⟩)
        (r.map fun v => ⟨p.key, v⟩) :=
    (agrees_attempt hr).map (by rintro _ c rfl; rfl)
  unfold walkPair walkValue Pair.toSchema
  cases p.value with
  | none => exact hpair (r := .error .missingValue) (by simp)
  | some v => exact hpair (toSchema_value_ne v)

/-- The constant of an annotation, if there is one. -/
def annotValue (v : Option Value) : Except Fault (Option Idl.Value) :=
  match v with
  | none => .ok none
  | some v => v.toSchema.map some

theorem toSchema_annot_eq (a : Annot) :
    a.toSchema = (do
      let value ← annotValue a.value
      let pairs ← entries Pair.toSchema a.pairs
      return ⟨a.name, value, pairs⟩) := by
  unfold Annot.toSchema annotValue
  cases a.value <;> rfl

theorem toSchema_field_eq (message : Bytes) (f : Field) :
    f.toSchema message = (do
      let type ← fieldType message f
      let annots ← annotsToSchema f.annots
      let source ← placeOfText f.source
      return ⟨f.name, type, f.optional, f.number, f.docs, annots, source⟩) := by
  unfold Field.toSchema fieldType
  cases f.type <;> rfl

/-- The constant of an annotation may be missing. -/
theorem agrees_walkAnnotValue (s : Option Fault) (v : Option Value) :
    Agrees s False some (walkAnnotValue v) (annotValue v) := by
  cases v with
  | none => exact agrees_pure fun _ => rfl
  | some v => exact agrees_attempt_some (toSchema_value_ne v)

theorem agrees_walkAnnot (s : Option Fault) (a : Annot) :
    Agrees s (none ∈ a.pairs) LooseAnnot.tighten? (walkAnnot a) a.toSchema := by
  rw [toSchema_annot_eq]
  refine Agrees.congr_null ((agrees_walkAnnotValue s a.value).bind fun s₁ v v' hv =>
    (agrees_entries agrees_walkPair a.pairs).bind fun s₂ ps ps' hps => agrees_pure fun hs => ?_)
    (by simp)
  obtain ⟨hs₁, hps⟩ := hps hs
  obtain ⟨-, hv⟩ := hv hs₁
  obtain rfl := Option.some.inj hv
  simp [LooseAnnot.tighten?, hps]

theorem agrees_walkAnnots (s : Option Fault) (l : List (Option Annot)) :
    Agrees s (AnnotsNull l) (List.mapM LooseAnnot.tighten?) (walkAnnots l) (annotsToSchema l) :=
  agrees_entries agrees_walkAnnot l

/-- A field: its type, its annotations and its place. -/
theorem agrees_walkField (message : Bytes) (s : Option Fault) (f : Field) :
    Agrees s (AnnotsNull f.annots) LooseField.tighten? (walkField message f)
      (f.toSchema message) := by
  rw [toSchema_field_eq]
  refine Agrees.congr_null ((agrees_walkFieldType s message f).bind fun s₁ t t' ht =>
    (agrees_walkAnnots s₁ f.annots).bind fun s₂ as as' has =>
    (agrees_walkPlace s₂ f.source).bind fun s₃ p p' hp => agrees_pure fun hs => ?_) (by simp)
  -- no error at the end means none at any step
  obtain ⟨hs₂, hp⟩ := hp hs
  obtain ⟨hs₁, has⟩ := has hs₂
  obtain ⟨-, ht⟩ := ht hs₁
  obtain rfl := Option.some.inj hp
  simp [LooseField.tighten?, ht, has]

/-- A message: its annotations, its place and its fields. -/
theorem agrees_walkMessage (s : Option Fault) (m : Message) :
    Agrees s (AnnotsNull m.annots ∨ none ∈ m.fields ∨
        ∃ f : Field, some f ∈ m.fields ∧ AnnotsNull f.annots)
      LooseMessage.tighten? (walkMessage m) m.toSchema := by
  refine Agrees.congr_null ((agrees_walkAnnots s m.annots).bind fun s₁ as as' has =>
    (agrees_walkPlace s₁ m.source).bind fun s₂ p p' hp =>
    (agrees_entries (agrees_walkField m.name) m.fields).bind fun s₃ fs fs' hfs =>
    agrees_pure fun hs => ?_) (by simp)
  -- no error at the end means none at any step
  obtain ⟨hs₂, hfs⟩ := hfs hs
  obtain ⟨hs₁, hp⟩ := hp hs₂
  obtain ⟨-, has⟩ := has hs₁
  obtain rfl := Option.some.inj hp
  simp [LooseMessage.tighten?, has, hfs]

/-- A method. -/
theorem agrees_walkMethod (s : Option Fault) (m : Method) :
    Agrees s (AnnotsNull m.annots) LooseMethod.tighten? (walkMethod m) m.toSchema := by
  refine Agrees.congr_null ((agrees_walkType s m.input).bind fun s₁ i i' hi =>
    (agrees_walkType s₁ m.output).bind fun s₂ o o' ho =>
    (agrees_walkAnnots s₂ m.annots).bind fun s₃ as as' has =>
    (agrees_walkPlace s₃ m.source).bind fun s₄ p p' hp => agrees_pure fun hs => ?_) (by simp)
  -- no error at the end means none at any step, so all parts were built
  obtain ⟨hs₃, hp⟩ := hp hs
  obtain ⟨hs₂, has⟩ := has hs₃
  obtain ⟨hs₁, ho⟩ := ho hs₂
  obtain ⟨-, hi⟩ := hi hs₁
  obtain rfl := Option.some.inj hp
  obtain rfl := Option.some.inj ho
  obtain rfl := Option.some.inj hi
  simp [LooseMethod.tighten?, has]

/-- A service: its annotations, its place and its methods. -/
theorem agrees_walkService (s : Option Fault) (svc : Service) :
    Agrees s (AnnotsNull svc.annots ∨ none ∈ svc.methods ∨
        ∃ m : Method, some m ∈ svc.methods ∧ AnnotsNull m.annots)
      LooseService.tighten? (walkService svc) svc.toSchema := by
  refine Agrees.congr_null ((agrees_walkAnnots s svc.annots).bind fun s₁ as as' has =>
    (agrees_walkPlace s₁ svc.source).bind fun s₂ p p' hp =>
    (agrees_entries agrees_walkMethod svc.methods).bind fun s₃ ms ms' hms =>
    agrees_pure fun hs => ?_) (by simp)
  -- no error at the end means none at any step
  obtain ⟨hs₂, hms⟩ := hms hs
  obtain ⟨hs₁, hp⟩ := hp hs₂
  obtain ⟨-, has⟩ := has hs₁
  obtain rfl := Option.some.inj hp
  simp [LooseService.tighten?, has, hms]

/-! ## §3 Where reading ends in a null -/

/-- What is read of a document, up to identifiers. -/
def parts (d : Document) : Except Fault Schema := do
  let annots ← annotsToSchema d.annots
  let messages ← entries Message.toSchema d.messages
  let services ← entries Service.toSchema d.services
  return ⟨d.package, messages, services, annots, d.parserVersion, d.sourcePath, .zero⟩

/-- The places of a null entry, in the order of the walk. -/
theorem nullEntry_iff (d : Document) :
    d.NullEntry ↔ AnnotsNull d.annots ∨
      (none ∈ d.messages ∨ ∃ m : Message, some m ∈ d.messages ∧ (AnnotsNull m.annots ∨
        none ∈ m.fields ∨ ∃ f : Field, some f ∈ m.fields ∧ AnnotsNull f.annots)) ∨
      (none ∈ d.services ∨ ∃ s : Service, some s ∈ d.services ∧ (AnnotsNull s.annots ∨
        none ∈ s.methods ∨ ∃ m : Method, some m ∈ s.methods ∧ AnnotsNull m.annots)) := by
  constructor
  · -- one constructor for each place
    intro h
    cases h with
    | annot h => exact .inl h
    | message h => exact .inr (.inl (.inl h))
    | messageAnnot m hm h => exact .inr (.inl (.inr ⟨m, hm, .inl h⟩))
    | field m hm h => exact .inr (.inl (.inr ⟨m, hm, .inr (.inl h)⟩))
    | fieldAnnot m hm f hf h => exact .inr (.inl (.inr ⟨m, hm, .inr (.inr ⟨f, hf, h⟩)⟩))
    | service h => exact .inr (.inr (.inl h))
    | serviceAnnot s hs h => exact .inr (.inr (.inr ⟨s, hs, .inl h⟩))
    | method s hs h => exact .inr (.inr (.inr ⟨s, hs, .inr (.inl h)⟩))
    | methodAnnot s hs m hm h => exact .inr (.inr (.inr ⟨s, hs, .inr (.inr ⟨m, hm, h⟩)⟩))
  · rintro (h | (h | ⟨m, hm, h | h | ⟨f, hf, h⟩⟩) | h | ⟨s, hs, h | h | ⟨m, hm, h⟩⟩)
    · exact .annot h
    · exact .message h
    · exact .messageAnnot m hm h
    · exact .field m hm h
    · exact .fieldAnnot m hm f hf h
    · exact .service h
    · exact .serviceAnnot s hs h
    · exact .method s hs h
    · exact .methodAnnot s hs m hm h

theorem anyMissing_iff {α : Type} {inside : α → Bool} {l : List (Option α)} :
    anyMissing inside l = true ↔ none ∈ l ∨ ∃ a : α, some a ∈ l ∧ inside a = true := by
  unfold anyMissing
  rw [List.any_eq_true]
  constructor
  · rintro ⟨_ | a, hmem, ha⟩
    · exact .inl hmem
    · exact .inr ⟨a, hmem, ha⟩
  · rintro (hmem | ⟨a, hmem, ha⟩)
    · exact ⟨none, hmem, rfl⟩
    · exact ⟨some a, hmem, ha⟩

theorem annotsMissing_iff (l : List (Option Annot)) : annotsMissing l = true ↔ AnnotsNull l := by
  simp [annotsMissing, AnnotsNull, anyMissing_iff]

theorem hasMissing_iff (d : Document) : d.hasMissing = true ↔ d.NullEntry := by
  simp only [nullEntry_iff, hasMissing, Bool.or_eq_true, anyMissing_iff, annotsMissing_iff, or_assoc]

theorem agrees_walkParts (d : Document) :
    Agrees none d.NullEntry LooseSchema.tighten? d.walkParts d.parts := by
  refine Agrees.congr_null ((agrees_walkAnnots none d.annots).bind fun s₁ as as' has =>
    (agrees_entries agrees_walkMessage d.messages).bind fun s₂ ms ms' hms =>
    (agrees_entries agrees_walkService d.services).bind fun s₃ ss ss' hss =>
    agrees_pure fun hs => ?_) (by simp [nullEntry_iff])
  obtain ⟨hs₂, hss⟩ := hss hs
  obtain ⟨hs₁, hms⟩ := hms hs₂
  obtain ⟨-, has⟩ := has hs₁
  simp [LooseSchema.tighten?, has, hms, hss]

/-- Compares the recorded identifiers of services with those of the content. -/
def checkServices (recorded : List (Option Service)) (actual : List Idl.Service) :
    Except Fault (List Unit) :=
  (recorded.zip actual).mapM fun p => checkService p.1 p.2

/-- The recorded identifiers have to be those of the content. -/
def verify (d : Document) (s : Schema) : Except Fault Schema :=
  if !d.id.isEmpty && d.id != s.id.text then .error (.wrongIdentifier d.id s.id)
  else (checkServices d.services s.services).map fun _ => s

/-- A document is converted in three stages: entries, parts, identifiers. -/
theorem toSchema_eq (d : Document) :
    d.toSchema = if d.hasMissing then .error .missingEntry
      else d.parts >>= fun s => d.verify s.identify := by
  unfold toSchema parts
  -- a missing entry is found before anything else
  by_cases hmissing : d.hasMissing
  · rw [if_pos hmissing, if_pos hmissing]
    rfl
  · rw [if_neg hmissing, if_neg hmissing]
    simp only [bind_assoc, pure_bind]
    refine bind_congr fun annots => bind_congr fun messages => bind_congr fun services => ?_
    generalize Schema.identify _ = s
    dsimp only [verify]
    split
    · rfl
    · change (checkServices d.services s.services >>= fun _ => pure s) = _
      cases checkServices d.services s.services <;> rfl

theorem gives_length_entries {α β : Type} (f : α → Except Fault β) (l : List (Option α)) :
    Gives (fun r => r.length = l.length) (entries f l) := by
  unfold entries
  induction l with
  | nil => exact gives_ok rfl
  | cons o l ih =>
    rw [List.mapM_cons]
    exact (gives_true _).bind fun b _ => ih.bind fun r hr => gives_ok (congrArg Nat.succ hr)

theorem walkIdentifiers_cons (r : Service) (recorded : List (Option Service)) (a : Idl.Service)
    (actual : List Idl.Service) :
    walkIdentifiers (some r :: recorded) (a :: actual) =
      match checkService (some r) a with
      | .ok _ => walkIdentifiers recorded actual
      | .error e => some (.error e) := by
  change (if r.id.isEmpty then walkIdentifiers recorded actual
    else if r.id == a.id.text then walkIdentifiers recorded actual
    else some (.error (.wrongServiceIdentifier r.name r.id a.id))) = _
  dsimp only [checkService]
  -- the recorded identifier is missing, right or wrong
  generalize r.id.isEmpty = absent
  generalize (r.id == a.id.text) = same
  cases absent <;> cases same <;> rfl

/-- Where no entry is null and none is without a service, comparing identifiers follows no null. -/
theorem walkIdentifiers_eq {recorded : List (Option Service)} {actual : List Idl.Service}
    (hnull : none ∉ recorded) (hlength : recorded.length = actual.length) :
    walkIdentifiers recorded actual =
      some ((checkServices recorded actual).map fun _ => ()) := by
  induction recorded generalizing actual with
  | nil => rfl
  | cons r recorded ih =>
    cases r with
    -- no service is null here
    | none => exact absurd List.mem_cons_self hnull
    | some r =>
      cases actual with
      | nil => cases hlength
      | cons a actual =>
        have hrest := ih (fun h => hnull (List.mem_cons_of_mem _ h)) (Nat.succ.inj hlength)
        rw [walkIdentifiers_cons, checkServices, List.zip_cons_cons, List.mapM_cons]
        dsimp only
        cases checkService (some r) a with
        | error e => rfl
        | ok _ =>
          refine hrest.trans (congrArg some ?_)
          change _ = Except.map _ (checkServices recorded actual >>= _)
          cases checkServices recorded actual <;> rfl

/-- As many services are read as there are entries. -/
theorem gives_length_parts (d : Document) :
    Gives (fun s => s.services.length = d.services.length) d.parts :=
  (gives_true _).bind fun _ _ => (gives_true _).bind fun _ _ =>
    (gives_length_entries Service.toSchema d.services).bind fun _ h => gives_ok h

theorem walk_of_nullEntry {d : Document} (h : d.NullEntry) : d.walk = none := by
  unfold walk
  rw [StateT.run, (agrees_walkParts d).crash h]
  rfl

/-- Without a null entry the walk gives what the conversion gives. -/
theorem walk_of_not_nullEntry {d : Document} (h : ¬ d.NullEntry) : d.walk = some d.toSchema := by
  obtain ⟨loose, s', hw, hend⟩ := (agrees_walkParts d).safe h
  have hlength := gives_length_parts d
  rw [toSchema_eq, if_neg (mt (hasMissing_iff d).mp h)]
  unfold walk
  rw [StateT.run, hw]
  generalize d.parts = r at hend hlength
  cases hend with
  | noted he => rfl
  | @built _ s htight =>
    -- the document records as many services as it has, so they can be compared in pairs
    have hservices : d.services.length = s.identify.services.length := by
      simpa [Schema.identify] using (hlength s rfl).symm
    have hids := walkIdentifiers_eq (mt NullEntry.service h) hservices
    change (do
      let s := (← loose.tighten?).identify
      if !d.id.isEmpty && d.id != s.id.text then return .error (.wrongIdentifier d.id s.id)
      else return (← walkIdentifiers d.services s.services).map fun _ => s) =
        some (d.verify s.identify)
    rw [htight, Option.bind_eq_bind, Option.bind_some]
    dsimp only [verify]
    split
    · rfl
    · rw [hids, Option.bind_eq_bind, Option.bind_some]
      cases checkServices d.services s.identify.services <;> rfl

theorem checkService_ne (r : Option Service) (a : Idl.Service) :
    checkService r a ≠ .error .missingEntry := by
  unfold checkService
  split
  · split <;> simp
  · simp

theorem mapM_ne {α β : Type} {f : α → Except Fault β} {e : Fault} (h : ∀ a, f a ≠ .error e)
    (l : List α) : l.mapM f ≠ .error e := by
  induction l with
  | nil => simp [pure, Except.pure]
  | cons a l ih =>
    rw [List.mapM_cons]
    cases ha : f a with
    | error e' => exact fun heq => h a (ha.trans (congrArg Except.error (Except.error.inj heq)))
    | ok b =>
      cases hl : l.mapM f with
      | error e' => exact fun heq => ih (hl.trans (congrArg Except.error (Except.error.inj heq)))
      | ok bs => simp [bind, Except.bind, pure, Except.pure]

theorem verify_ne (d : Document) (s : Schema) : d.verify s ≠ .error .missingEntry := by
  have hchecks : checkServices d.services s.services ≠ .error .missingEntry :=
    mapM_ne (fun p : Option Service × Idl.Service => checkService_ne p.1 p.2) _
  unfold verify
  split
  · simp
  · revert hchecks
    cases checkServices d.services s.services with
    | error e => exact fun hne heq => hne (congrArg Except.error (Except.error.inj heq))
    | ok _ => simp [Except.map]

/-- The fault of a missing entry stands for nothing else. -/
theorem toSchema_eq_missingEntry_iff (d : Document) :
    d.toSchema = .error .missingEntry ↔ d.NullEntry := by
  rw [toSchema_eq, ← hasMissing_iff]
  constructor
  · intro h
    -- the fault is noted nowhere else
    by_contra hmissing
    rw [if_neg hmissing] at h
    obtain ⟨loose, s', -, hend⟩ := (agrees_walkParts d).safe (mt (hasMissing_iff d).mpr hmissing)
    generalize d.parts = r at h hend
    cases hend with
    | noted he => exact he (Except.error.inj h)
    | built => exact verify_ne d _ h
  · exact fun h => if_pos h

/-- Reading a document ends in a null exactly if some list of it has a null among its entries, and
that is what the fault of a missing entry stands for. Every other document is read to a schema or to
a fault, whatever types and constants are null in it: neither the walk, which goes on after its first
fault, nor the encoder, which follows what the walk has built, meets a null. -/
theorem walk_eq_none_iff_nullEntry (d : Document) :
    (d.walk = none ↔ d.NullEntry) ∧ (d.toSchema = .error .missingEntry ↔ d.NullEntry) ∧
      (¬ d.NullEntry → d.walk = some d.toSchema) := by
  refine ⟨⟨fun h => ?_, walk_of_nullEntry⟩, toSchema_eq_missingEntry_iff d, walk_of_not_nullEntry⟩
  by_contra hnull
  rw [walk_of_not_nullEntry hnull] at h
  cases h

/-- A field without a type and a pair without a constant are faults; of the two, the type is looked
at first. -/
theorem walk_of_null_type :
    let d : Document := ⟨"p", [], [], [], [], [some ⟨"M", [], [], [],
      [some ⟨"a", none, false, 1, [], [some ⟨"x", none, [some ⟨"k", none⟩]⟩], []⟩]⟩], []⟩
    ¬ d.NullEntry ∧ d.walk = some (.error (.missingType "M" "a")) := by
  intro d
  have hnull : ¬ d.NullEntry := by
    rw [← hasMissing_iff]
    decide
  refine ⟨hnull, ((walk_eq_none_iff_nullEntry d).2.2 hnull).trans (congrArg some ?_)⟩
  rfl

end Idl.Document
