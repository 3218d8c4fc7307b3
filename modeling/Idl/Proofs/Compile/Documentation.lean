import Idl.Proofs.Compile.Portable
import Idl.Proofs.Compile.Rewording
import Idl.Proofs.Json.RoundTrip
import Idl.Proofs.Token.Splice

/-!
# Documentation is part of the identity

Where one text of documentation stands in place of another, the canonical encodings of two schemas
differ exactly if the texts do, stray octets not told apart. The text literal of an annotation for
documentation may be replaced by any other one: the source still compiles, and the schema has another
canonical encoding exactly if the texts differ in more than their stray octets. All stray octets are
encoded alike, so that two texts that differ in them alone have the same identity.

* §1 strings in a text, §2 values that differ in strings, §3 their texts,
* §4 schemas that differ in documentation, §5 what files mean,
* §6 the literal among the tokens, §7 the identity.
-/

namespace Idl

namespace Json

/-! ## §1 Strings in a text -/

/-- Where two texts that begin with strings agree, so do the strings and what follows them. -/
theorem writeString_append_inj {a b r s : Bytes}
    (h : writeString true a ++ r = writeString true b ++ s) :
    Utf8.sanitize a = Utf8.sanitize b ∧ r = s := by
  rw [← writeString_sanitize true a, ← writeString_sanitize true b] at h
  obtain ⟨t, ht, n, hpiece, hdrop⟩ := pieceAt?_string true (Utf8.isValid_ofChars (Utf8.chars a)) r
  obtain ⟨t', ht', n', hpiece', hdrop'⟩ :=
    pieceAt?_string true (Utf8.isValid_ofChars (Utf8.chars b)) s
  obtain rfl : t = t' := List.tail_eq_of_cons_eq (ht.symm.trans (h.trans ht'))
  rw [hpiece] at hpiece'
  simp only [Option.some.injEq, Prod.mk.injEq, Piece.scalar.injEq, str.injEq] at hpiece'
  obtain ⟨htext, rfl⟩ := hpiece'
  exact ⟨htext, hdrop.symm.trans hdrop'⟩

/-! ## §2 Values that differ in strings -/

/-- The same value, except that in some places the new text stands in place of the old one. -/
inductive Reworded (K : Rewording) : Nat → Json → Json → Prop where
  | same (v : Json) : Reworded K 0 v v
  | str : Reworded K 1 (.str K.old) (.str K.new)
  | item {i j : Nat} {v w : Json} {l m : List Json} (head : Reworded K i v w)
      (tail : Reworded K j (.arr l) (.arr m)) : Reworded K (i + j) (.arr (v :: l)) (.arr (w :: m))
  | member {i j : Nat} {v w : Json} {l m : List (Bytes × Json)} (key : Bytes)
      (head : Reworded K i v w) (tail : Reworded K j (.obj l) (.obj m)) :
      Reworded K (i + j) (.obj ((key, v) :: l)) (.obj ((key, w) :: m))

namespace Reworded

variable {K : Rewording} {i j : Nat} {v w : Json}

theorem items {α β : Type} {R : Nat → α → β → Prop} {f : α → Json} {g : β → Json} {l : List α}
    {m : List β} (h : Summed R i l m) (hR : ∀ n a b, R n a b → Reworded K n (f a) (g b)) :
    Reworded K i (.arr (l.map f)) (.arr (m.map g)) := by
  induction h with
  | nil => exact .same _
  | cons head tail ih => exact .item (hR _ _ _ head) ih

/-- Members behind the same members. -/
theorem same_append (l : List (Bytes × Json)) {m m' : List (Bytes × Json)}
    (h : Reworded K j (.obj m) (.obj m')) : Reworded K j (.obj (l ++ m)) (.obj (l ++ m')) := by
  induction l with
  | nil => exact h
  | cons p l ih =>
    have hcons := member (K := K) p.1 (.same p.2) ih
    rw [Nat.zero_add] at hcons
    exact hcons

/-- Two objects whose members are reworded one after another. -/
theorem append {l l' m m' : List (Bytes × Json)} (h : Reworded K i (.obj l) (.obj l'))
    (h' : Reworded K j (.obj m) (.obj m')) :
    Reworded K (i + j) (.obj (l ++ m)) (.obj (l' ++ m')) := by
  -- the first object is consumed member by member, and the second one stands at its end
  generalize hv : Json.obj l = v, hw : Json.obj l' = w at h
  induction h generalizing l l' with
  | same v =>
    subst hv
    cases hw
    rw [Nat.zero_add]
    exact same_append l h'
  | str => cases hv
  | item => cases hv
  | member key head tail ihhead ihtail =>
    cases hv
    cases hw
    rw [Nat.add_assoc]
    exact .member key head (ihtail rfl rfl)

/-! ## §3 Texts -/

theorem arr_nil_iff {l m : List Json} (h : Reworded K i (.arr l) (.arr m)) :
    l = [] ↔ m = [] := by
  cases h <;> simp

theorem obj_nil_iff {l m : List (Bytes × Json)} (h : Reworded K i (.obj l) (.obj m)) :
    l = [] ↔ m = [] := by
  cases h <;> simp

/-- If the first texts tell apart what they are followed by, and so do the others, all of them do;
unless two different texts are written in the same way. -/
theorem eq_of_joined {α β : Type} {S : Prop} {write : α → Bytes} {write' : β → Bytes} {a : α}
    {b : β} {l : List α} {m : List β} {close : UInt8}
    (hhead : ∀ r s, write a ++ r = write' b ++ s → i = 0 ∧ r = s ∨ S)
    (htail : ∀ r s, joined write l ++ close :: r = joined write' m ++ close :: s →
      j = 0 ∧ r = s ∨ S)
    (hnil : l = [] ↔ m = []) {r s : Bytes}
    (h : joined write (a :: l) ++ close :: r = joined write' (b :: m) ++ close :: s) :
    i + j = 0 ∧ r = s ∨ S := by
  -- a comma follows the first part exactly where one follows on the other side
  cases l with
  | nil =>
    obtain rfl := hnil.mp rfl
    rcases hhead _ _ h with ⟨rfl, hrest⟩ | hS
    · exact (htail r s hrest).imp_left fun hj => ⟨by rw [hj.1], hj.2⟩
    · exact .inr hS
  | cons a' l =>
    cases m with
    | nil => exact absurd (hnil.mpr rfl) (List.cons_ne_nil _ _)
    | cons b' m =>
      rw [joined_cons_cons, joined_cons_cons, List.append_assoc, List.append_assoc] at h
      rcases hhead _ _ h with ⟨rfl, hrest⟩ | hS
      · exact (htail r s (List.tail_eq_of_cons_eq hrest)).imp_left fun hj => ⟨by rw [hj.1], hj.2⟩
      · exact .inr hS

theorem compact_arr (l : List Json) :
    (Json.arr l).compact = 0x5B :: (joined Json.compact l ++ [0x5D]) := by
  rw [Json.compact, compactItems_eq]
  rfl

theorem compact_obj (l : List (Bytes × Json)) :
    (Json.obj l).compact = 0x7B :: (joined compactMember l ++ [0x7D]) := by
  rw [Json.compact, compactMembers_eq]
  rfl

/-- Equal texts have nothing reworded in them, unless the old and the new text are written in the
same way. -/
theorem eq_of_compact (h : Reworded K i v w) (r s : Bytes) (heq : v.compact ++ r = w.compact ++ s) :
    i = 0 ∧ r = s ∨ Utf8.sanitize K.old = Utf8.sanitize K.new := by
  induction h generalizing r s with
  | same v => exact .inl ⟨rfl, List.append_cancel_left heq⟩
  -- the text of the literal, the only place that can differ
  | str => exact .inr (writeString_append_inj heq).1
  | item head tail ihhead ihtail =>
    simp only [compact_arr, List.cons_append, List.append_assoc, List.nil_append, List.cons.injEq,
      true_and] at heq ihtail
    exact eq_of_joined ihhead ihtail tail.arr_nil_iff heq
  | member key head tail ihhead ihtail =>
    simp only [compact_obj, List.cons_append, List.append_assoc, List.nil_append, List.cons.injEq,
      true_and] at heq ihtail
    -- the key is the same on both sides, so the values stand in one place
    refine eq_of_joined (fun r s h => ihhead r s ?_) ihtail tail.obj_nil_iff heq
    rw [compactMember, compactMember, List.append_assoc, List.append_assoc] at h
    exact List.tail_eq_of_cons_eq (List.append_cancel_left h)

theorem joined_cons_congr {α β : Type} {write : α → Bytes} {write' : β → Bytes} {a : α} {b : β}
    {l : List α} {m : List β} (hhead : write a = write' b) (htail : joined write l = joined write' m)
    (hnil : l = [] ↔ m = []) : joined write (a :: l) = joined write' (b :: m) := by
  cases l with
  | nil =>
    obtain rfl := hnil.mp rfl
    exact hhead
  | cons a' l =>
    cases m with
    | nil => exact absurd (hnil.mpr rfl) (List.cons_ne_nil _ _)
    | cons b' m => rw [joined_cons_cons, joined_cons_cons, hhead, htail]

/-- Where the old and the new text are written in the same way, so is everything. -/
theorem compact_eq (h : Reworded K i v w) (hsame : Utf8.sanitize K.old = Utf8.sanitize K.new) :
    v.compact = w.compact := by
  induction h with
  | same v => rfl
  -- a text is written as its mended form is
  | str => rw [compact, compact, ← writeString_sanitize, hsame, writeString_sanitize]
  | item head tail ihhead ihtail =>
    rw [compact_arr, compact_arr] at ihtail
    have htail := List.append_cancel_right (List.tail_eq_of_cons_eq ihtail)
    rw [compact_arr, compact_arr, joined_cons_congr ihhead htail tail.arr_nil_iff]
  | @member _ _ v w _ _ key head tail ihhead ihtail =>
    rw [compact_obj, compact_obj] at ihtail
    have htail := List.append_cancel_right (List.tail_eq_of_cons_eq ihtail)
    have hhead : compactMember (key, v) = compactMember (key, w) := by
      rw [compactMember, compactMember, ihhead]
    rw [compact_obj, compact_obj, joined_cons_congr hhead htail tail.obj_nil_iff]

/-- Nothing is reworded, or the texts are the same exactly if the two strings are written in the
same way. -/
theorem compact_eq_iff (h : Reworded K i v w) (hi : i ≠ 0) :
    v.compact = w.compact ↔ Utf8.sanitize K.old = Utf8.sanitize K.new := by
  refine ⟨fun heq => ?_, h.compact_eq⟩
  rcases h.eq_of_compact [] [] (by rw [heq]) with ⟨hzero, -⟩ | hsame
  · exact absurd hzero hi
  · exact hsame

end Reworded

end Json

/-! ## §4 Schemas that differ in documentation -/

/-- The same field with other documentation, as far as it is encoded. -/
structure Field.Redocumented (K : Rewording) (i : Nat) (a b : Field) : Prop where
  name : b.name = a.name
  type : b.type = a.type
  optional : b.optional = a.optional
  number : b.number = a.number
  annots : b.annots = a.annots
  docs : Summed (DocAkin K) i a.docs b.docs

/-- The same message with other documentation. -/
inductive Message.Redocumented (K : Rewording) : Nat → Message → Message → Prop where
  | mk {i j : Nat} {a b : Message} (name : b.name = a.name) (annots : b.annots = a.annots)
      (docs : Summed (DocAkin K) i a.docs b.docs)
      (fields : Summed (Field.Redocumented K) j a.fields b.fields) : Redocumented K (i + j) a b

/-- The same method with other documentation. -/
structure Method.Redocumented (K : Rewording) (i : Nat) (a b : Method) : Prop where
  name : b.name = a.name
  input : b.input = a.input
  output : b.output = a.output
  annots : b.annots = a.annots
  docs : Summed (DocAkin K) i a.docs b.docs

/-- The same service with other documentation. -/
inductive Service.Redocumented (K : Rewording) : Nat → Service → Service → Prop where
  | mk {i j : Nat} {a b : Service} (name : b.name = a.name) (annots : b.annots = a.annots)
      (docs : Summed (DocAkin K) i a.docs b.docs)
      (methods : Summed (Method.Redocumented K) j a.methods b.methods) : Redocumented K (i + j) a b

/-- The same schema with other documentation. -/
inductive Schema.Redocumented (K : Rewording) : Nat → Schema → Schema → Prop where
  | mk {i j : Nat} {a b : Schema} (package : b.package = a.package) (annots : b.annots = a.annots)
      (messages : Summed (Message.Redocumented K) i a.messages b.messages)
      (services : Summed (Service.Redocumented K) j a.services b.services) :
      Redocumented K (i + j) a b

namespace Canonical

open Json (Reworded)

variable {K : Rewording} {i j : Nat}

/-- The lines of documentation, member by member. -/
theorem reworded_docs {d e : List Bytes} (h : Summed (DocAkin K) i d e) :
    Reworded K i (.obj (docs d)) (.obj (docs e)) := by
  have hitems : Reworded K i (.arr (d.map .str)) (.arr (e.map .str)) :=
    Reworded.items h fun n a b hab => by
      cases hab with
      | same t => exact .same _
      | swap => exact .str
  cases h with
  | nil => exact .same _
  | cons head tail =>
    -- the list stands under its key, and no member follows
    have hdocs := hitems.member "docs" (.same (.obj []))
    rw [Nat.add_zero] at hdocs
    exact hdocs

/-- The members of an entity that differ in documentation and in the last ones. -/
theorem reworded_entity (front : List (Bytes × Json)) (kept : List Annot) {d e : List Bytes}
    {r r' : List (Bytes × Json)} (hdocs : Summed (DocAkin K) i d e)
    (hrest : Reworded K j (.obj r) (.obj r')) :
    Reworded K (i + j) (.obj (front ++ docs d ++ annots kept ++ r))
      (.obj (front ++ docs e ++ annots kept ++ r')) := by
  simp only [List.append_assoc]
  exact .same_append front ((reworded_docs hdocs).append (.same_append _ hrest))

theorem reworded_field {a b : Field} (h : a.Redocumented K i b) :
    Reworded K i (field a) (field b) := by
  have hentity := reworded_entity [Json.member "name" (.str a.name),
    Json.member "type" (type a.type), Json.member "optional" (.bool a.optional),
    Json.member "number" (.nat a.number)] a.annots h.docs (.same (.obj []))
  rw [List.append_nil, List.append_nil, Nat.add_zero] at hentity
  rw [field, field, h.name, h.type, h.optional, h.number, h.annots]
  exact hentity

theorem reworded_method {a b : Method} (h : a.Redocumented K i b) :
    Reworded K i (method a) (method b) := by
  have hentity := reworded_entity [Json.member "name" (.str a.name),
    Json.member "input" (type? a.input), Json.member "output" (type? a.output)] a.annots h.docs
    (.same (.obj []))
  rw [List.append_nil, List.append_nil, Nat.add_zero] at hentity
  rw [method, method, h.name, h.input, h.output, h.annots]
  exact hentity

theorem reworded_list {l m : List Json} (key : Bytes) (h : Reworded K i (.arr l) (.arr m)) :
    Reworded K i (.obj [(key, .arr l)]) (.obj [(key, .arr m)]) := by
  have hmember := h.member key (.same (.obj []))
  rw [Nat.add_zero] at hmember
  exact hmember

theorem reworded_message {a b : Message} (h : a.Redocumented K i b) :
    Reworded K i (message a) (message b) := by
  cases h with
  | mk name kept hdocs hfields =>
    rw [message, message, name, kept]
    exact reworded_entity [Json.member "name" (.str a.name)] a.annots hdocs
      (reworded_list "fields" (.items hfields fun _ _ _ => reworded_field))

theorem reworded_service {a b : Service} (h : a.Redocumented K i b) :
    Reworded K i (service a) (service b) := by
  cases h with
  | mk name kept hdocs hmethods =>
    rw [service, service, name, kept]
    exact reworded_entity [Json.member "name" (.str a.name)] a.annots hdocs
      (reworded_list "methods" (.items hmethods fun _ _ _ => reworded_method))

end Canonical

/-- The encodings of schemas that differ in documentation are the same exactly if the old and the
new text are the same, stray octets not told apart. -/
theorem Schema.Redocumented.encoding_eq_iff {K : Rewording} {i : Nat} {a b : Schema}
    (h : a.Redocumented K i b) (hi : i ≠ 0) :
    b.encoding = a.encoding ↔ Utf8.sanitize K.new = Utf8.sanitize K.old := by
  cases h with
  | mk package kept messages services =>
    -- the two lists of types may differ, and everything before them is kept
    have htypes := (Canonical.reworded_list "messages"
      (.items messages fun _ _ _ => Canonical.reworded_message)).append
      (Canonical.reworded_list "services" (.items services fun _ _ _ => Canonical.reworded_service))
    have hall := Json.Reworded.same_append
      (Json.member "package" (.str a.package) :: Canonical.annots a.annots) htypes
    rw [eq_comm, eq_comm (a := Utf8.sanitize K.new), ← hall.compact_eq_iff hi]
    rw [Schema.encoding, Schema.encoding, Canonical.typeMembers, Canonical.typeMembers, package, kept,
      List.append_assoc, List.append_assoc]
    rfl

/-! ## §5 What files mean -/

namespace Tree.File

variable {K : Rewording} {i j : Nat} {f f' : File}

/-- A field keeps its name, type and number when a documentation text in the file is replaced. -/
theorem Akin.redocumented_field (h : f.Akin K i f') {m : Message} {x y : Field} (hxy : x.Akin K j y)
    (hx : f.fieldErrors m x = []) (position : Nat) :
    (f.lowerField position x).Redocumented K j (f'.lowerField position y) := by
  obtain ⟨-, hannots⟩ := List.append_eq_nil_iff.mp hx
  -- the annotations that mean something other than documentation are the same
  obtain ⟨hdocs, hkept⟩ := meanings_akin hxy.annots hannots
  refine ⟨hxy.name.name, h.typeOf hxy.type, hxy.optional, ?_, hkept, hdocs⟩
  have hexplicit := Field.SameNumber.explicit? hxy.number
  have hnumber := hxy.number
  unfold File.lowerField
  dsimp only
  rw [hexplicit]
  generalize x.number = p, y.number = q at hnumber
  -- numbered by hand on both sides, or on none
  cases hnumber <;> rfl

/-- A message changes in the documentation of its own and of its fields only. -/
theorem Akin.redocumented_message (h : f.Akin K i f') {m m' : Message} (hmm : m.Akin K j m')
    (hm : f.messageErrors m = []) : (f.lowerMessage m).Redocumented K j (f'.lowerMessage m') := by
  cases hmm with
  | mk place annots name fields =>
    unfold File.messageErrors at hm
    simp only [List.append_eq_nil_iff, List.flatMap_eq_nil_iff] at hm
    obtain ⟨⟨⟨hannots, -⟩, hfields⟩, -⟩ := hm
    obtain ⟨hdocs, hkept⟩ := meanings_akin annots hannots
    refine .mk name.name hkept hdocs ?_
    unfold File.lowerMessage Message.numbered
    dsimp only
    rw [List.map_map, List.map_map]
    -- the fields keep their places, and with them their automatic numbers
    refine (fields.zipIdx 0).map ?_
    rintro k ⟨x, n⟩ hx ⟨y, n'⟩ ⟨hxy, rfl⟩
    exact h.redocumented_field hxy (hfields x (List.fst_mem_of_mem_zipIdx hx)) (n' + 1)

/-- A method changes in its own documentation only. -/
theorem Akin.redocumented_method (h : f.Akin K i f') {s : Service} {x y : Method}
    (hxy : x.Akin K j y) (hx : f.methodErrors s x = []) :
    (f.lowerMethod x).Redocumented K j (f'.lowerMethod y) := by
  unfold File.methodErrors at hx
  obtain ⟨-, hannots⟩ := List.append_eq_nil_iff.mp hx
  obtain ⟨hdocs, hkept⟩ := meanings_akin hxy.annots hannots
  -- a type named on both sides in the same way resolves to the same entity
  have htype {o o' : Option TypeRef}
      (ho : Option.Rel (fun s t : TypeRef => s.name.Akin t.name) o o') :
      o'.map f'.typeOf = o.map f.typeOf := by
    cases ho with
    | none => rfl
    | some hr => exact congrArg some (h.typeOf hr)
  exact ⟨hxy.name.name, htype hxy.input, htype hxy.output, hkept, hdocs⟩

theorem Akin.redocumented_service (h : f.Akin K i f') {s s' : Service} (hss : s.Akin K j s')
    (hs : f.serviceErrors s = []) : (f.lowerService s).Redocumented K j (f'.lowerService s') := by
  cases hss with
  | mk place annots name methods =>
    unfold File.serviceErrors at hs
    simp only [List.append_eq_nil_iff, List.flatMap_eq_nil_iff] at hs
    obtain ⟨⟨hannots, -⟩, hmethods⟩ := hs
    obtain ⟨hdocs, hkept⟩ := meanings_akin annots hannots
    exact .mk name.name hkept hdocs
      (methods.map fun k x hx y hxy => h.redocumented_method hxy (hmethods x hx))

/-- What files mean that are akin differs in documentation. -/
theorem Akin.redocumented_schema (h : f.Akin K i f') (hf : f.errors = []) (sourcePath : Bytes) :
    (f.schema sourcePath).Redocumented K i (f'.schema sourcePath) := by
  obtain ⟨-, -, -, hmessages, hservices⟩ := File.errors_eq_nil hf
  obtain ⟨j, k, rfl, hj, hk⟩ := summed_decls h.decls
  have hoptions : f'.lowerOptions = f.lowerOptions :=
    map_eq_of_forall₂ h.options fun o o' hoo => by rw [hoo.name.dotted, hoo.value.lower_eq]
  refine .mk h.packageName hoptions
    (hj.map fun n x hx y hxy => h.redocumented_message hxy (hmessages x hx)) ?_
  -- identities are not encoded
  refine (hk.map fun n x hx y hxy => h.redocumented_service hxy (hservices x hx)).map ?_
  intro n x hx y hxy
  cases hxy with
  | mk name annots docs methods => exact .mk name annots docs methods

end Tree.File

/-! ## §6 The literal among the tokens -/

/-- The token is the text literal in an annotation `@doc(…)` of a source. -/
inductive DocLiteral (src : Bytes) (lit : Token) : Prop where
  | mk {l : Lexed} {before after : List Token} {sign word paren : Token} (read : lex src = .ok l)
      (tokens : l.significant = before ++ sign :: word :: paren :: lit :: after)
      (sign_kind : sign.kind = .atSign) (word_is : word.isWord "doc" = true)
      (paren_kind : paren.kind = .openParen) (lit_kind : lit.kind = .textLit)

/-- A source with other octets in the place of a token. -/
def replaceToken (src : Bytes) (t : Token) (new : Bytes) : Bytes :=
  src.take t.start ++ (new ++ src.drop t.stop)

/-- One text literal in place of another. -/
def Rewording.ofTexts {oldText old newText new : Bytes} (h : textLitValue oldText = .ok old)
    (h' : textLitValue newText = .ok new) : Rewording :=
  ⟨fun _ => True, oldText, old, newText, new, h, h'⟩

/-- Tokens with the same words are akin. -/
theorem forall₂_akin_of_words {K : Rewording} (hplace : ∀ p, K.place p) {l m : List Token}
    (hwords : m.map Token.word = l.map Token.word) (hl : ∀ t ∈ l, t.kind = .ident → Bytes.IsName t.text) :
    List.Forall₂ (Token.Akin K) l m := by
  induction l generalizing m with
  | nil =>
    obtain rfl := List.map_eq_nil_iff.mp hwords
    exact .nil
  | cons t l ih =>
    obtain ⟨u, m, rfl, hword, hwords⟩ := List.map_eq_cons_iff.mp hwords
    obtain ⟨ht, hl⟩ := List.forall_mem_cons.mp hl
    obtain ⟨hkind, htext⟩ := Prod.mk.inj hword
    exact .cons ⟨hkind, htext, hplace _, ht⟩ (ih hwords hl)

theorem Aligned.append {K : Rewording} {k : Nat} {l m l' m' : List Token}
    (h : List.Forall₂ (Token.Akin K) l m) (h' : Aligned K k l' m') :
    Aligned K k (l ++ l') (m ++ m') := by
  induction h with
  | nil => exact h'
  | cons head tail ih => exact .cons head ih

theorem map_word_filter (l : List Token) :
    (l.filter fun t => !t.kind.isTrivia).map Token.word
      = (l.map Token.word).filter fun w => !w.1.isTrivia := by
  rw [List.filter_map]
  rfl

/-- Where the literal of documentation is replaced, the tokens that the grammar looks at are
aligned. -/
theorem exists_aligned {src newText old new : Bytes} {l l' : Lexed} {e lit : Token}
    (hlex : lex src = .ok l) (hend : l.ending = .ok e) (hlit : DocLiteral src lit)
    (hold : textLitValue lit.text = .ok old) (hnew : textLitValue newText = .ok new)
    (hliteral : IsTextLiteral newText) (hlex' : lex (replaceToken src lit newText) = .ok l') :
    Cursor.Akin (.ofTexts hold hnew) 1 ⟨l.significant, l.ending, 0⟩
      ⟨l'.significant, l'.ending, 0⟩ := by
  obtain @⟨_, before, after, sign, word, paren, hread, htokens, hsign, hword, hparen, hkind⟩ := hlit
  rw [hlex] at hread
  cases hread
  have hlexes := (lex_lexes hlex hend).1
  -- the literal splits all tokens, and what the grammar sees of them
  have hsplit : l.significant = (before ++ [sign, word, paren]) ++ lit :: after := by
    rw [htokens]
    simp
  obtain ⟨ts, rest, hts, hfront, hrest⟩ := List.filter_eq_append_iff.mp hsplit
  obtain ⟨gap, us, rfl, hgap, -, hafter⟩ := List.filter_eq_cons_iff.mp hrest
  rw [← List.append_assoc] at hts
  -- read again, what is in front of the literal and behind it gives the same words
  obtain ⟨ts', lit', us', e', rfl, hwords, hlitword, hwords', hendword⟩ :=
    exists_of_lex_splice hlex hend hts hkind hliteral hlex'
  obtain ⟨hkind', htext'⟩ := Prod.mk.inj hlitword
  obtain ⟨hekind, hetext⟩ := Prod.mk.inj hendword
  have hfilter : (ts ++ gap).filter (fun t => !t.kind.isTrivia) = before ++ [sign, word, paren] := by
    rw [List.filter_append, hfront, List.filter_eq_nil_iff.mpr hgap, List.append_nil]
  have hseen : Lexed.significant ⟨ts' ++ lit' :: us', .ok e'⟩
      = ts'.filter (fun t => !t.kind.isTrivia) ++ lit' :: us'.filter fun t => !t.kind.isTrivia := by
    rw [Lexed.significant, List.filter_append,
      List.filter_cons_of_pos (by simp [hkind', TokenKind.isTrivia])]
  have hfront' : (ts'.filter fun t => !t.kind.isTrivia).map Token.word
      = (before ++ [sign, word, paren]).map Token.word := by
    rw [map_word_filter, hwords, ← map_word_filter, hfilter]
  have hafter' : (us'.filter fun t => !t.kind.isTrivia).map Token.word
      = after.map Token.word := by
    rw [map_word_filter, hwords', ← map_word_filter, hafter]
  -- so the sign, the name and the parenthesis stand in front of it again
  rw [List.map_append] at hfront'
  obtain ⟨before', three, hfilter', hbefore, hthree⟩ := List.map_eq_append_iff.mp hfront'
  obtain ⟨sign', three, rfl, hsign', hthree⟩ := List.map_eq_cons_iff.mp hthree
  obtain ⟨word', three, rfl, hword', hthree⟩ := List.map_eq_cons_iff.mp hthree
  obtain ⟨paren', three, rfl, hparen', hthree⟩ := List.map_eq_cons_iff.mp hthree
  obtain rfl := List.map_eq_nil_iff.mp hthree
  have hmem {t : Token} (ht : t ∈ l.significant) (hkind : t.kind = .ident) :
      Bytes.IsName t.text :=
    hlexes.isName (List.mem_filter.mp ht).1 hkind
  have hakin {t u : Token} (ht : t ∈ l.significant) (hword : u.word = t.word) :
      t.Akin (.ofTexts hold hnew) u := by
    obtain ⟨hkind, htext⟩ := Prod.mk.inj hword
    exact ⟨hkind, htext, trivial, hmem ht⟩
  refine ⟨significant_proper hlex, ?_, fun e₀ he₀ => ⟨e', rfl, ?_⟩⟩
  · rw [hseen, hfilter', htokens]
    have hplace (p : Pos) : (Rewording.ofTexts hold hnew).place p := trivial
    have hbefore := forall₂_akin_of_words hplace hbefore
      fun t ht => hmem (by rw [htokens]; exact List.mem_append_left _ ht)
    have hafter := forall₂_akin_of_words hplace hafter'
      fun t ht => hmem (by rw [htokens]; simp [ht])
    rw [List.append_assoc]
    refine Aligned.append hbefore ?_
    have htail := Aligned.append hafter (.nil (K := .ofTexts hold hnew))
    rw [List.append_nil, List.append_nil] at htail
    -- at the literal each side has the text of its own
    exact .swap (hakin (by rw [htokens]; simp) hsign') hsign (hakin (by rw [htokens]; simp) hword')
      hword (hakin (by rw [htokens]; simp) hparen') hparen hkind rfl hkind' htext' htail
  · obtain ⟨-, hkind₀, htext₀, -⟩ := lex_lexes hlex he₀
    exact ⟨hekind.trans hkind₀.symm, hetext.trans htext₀.symm, trivial, fun h => by
      rw [hkind₀] at h; cases h⟩

/-! ## §7 The identity -/

/-- The text of documentation may be replaced by any other one. The encoding stays the same exactly
if the texts do, up to their stray octets. -/
theorem exists_compileSource_replaceToken {src sourcePath newText old new : Bytes}
    {allowMissingPackage : Bool} {c : Compilation} {s : Schema} {lit : Token} {l' : Lexed}
    (h : compileSource src sourcePath allowMissingPackage = .ok c) (hs : c.outcome = .ok s)
    (hlit : DocLiteral src lit) (hold : textLitValue lit.text = .ok old)
    (hliteral : IsTextLiteral newText) (hnew : textLitValue newText = .ok new)
    (hlex' : lex (replaceToken src lit newText) = .ok l') :
    ∃ c' s', compileSource (replaceToken src lit newText) sourcePath allowMissingPackage = .ok c'
      ∧ c'.outcome = .ok s'
      ∧ s.id = .digest s.encoding ∧ s'.id = .digest s'.encoding
      ∧ (s'.encoding = s.encoding ↔ Utf8.sanitize new = Utf8.sanitize old) := by
  obtain ⟨f, hparse, hf, rfl⟩ := exists_of_compileSource h hs
  obtain ⟨l, d, hlex, hfile⟩ := exists_of_parseFile_eq_ok hparse
  obtain ⟨⟨e, hend⟩, -⟩ := Grammar.file_sound (significant_proper hlex) hfile
  -- the tokens agree but for the one replaced, so the parser takes the same course
  have hcursor := exists_aligned hlex hend hlit hold hnew hliteral hlex'
  obtain ⟨f', d', hfile', hakin⟩ := Grammar.exists_file_akin hcursor hfile
  have hparse' : parseFile (replaceToken src lit newText) allowMissingPackage = .ok f' := by
    rw [parseFile_of_lex hlex', hfile']
    rfl
  have hcompile : compileSource (replaceToken src lit newText) sourcePath allowMissingPackage
      = .ok (f'.compile sourcePath) := by
    rw [compileSource, hparse']
    rfl
  -- no check reads the text, so the new file is accepted with the old one
  have hs' : (f'.compile sourcePath).outcome = .ok (f'.schema sourcePath) := by
    rw [Tree.File.compile, hakin.errors_eq_nil hf]
    rfl
  exact ⟨_, _, hcompile, hs', (portable_of_compileSource h hs).id_eq,
    (portable_of_compileSource hcompile hs').id_eq,
    (hakin.redocumented_schema hf sourcePath).encoding_eq_iff one_ne_zero⟩

/-- Two texts of one stray octet each, which are different, have the same encoding. -/
theorem exists_compileSource_replaceToken_stray :
    textLitValue "\"\\xff\"" = .ok [0xFF] ∧ textLitValue "\"\\xfe\"" = .ok [0xFE]
      ∧ ∃ c s c' s', compileSource "package p;@doc(\"\\xff\")message M\x7b\x7d" [] false = .ok c
        ∧ c.outcome = .ok s
        ∧ compileSource "package p;@doc(\"\\xfe\")message M\x7b\x7d" [] false = .ok c'
        ∧ c'.outcome = .ok s' ∧ s'.encoding = s.encoding := by
  have hcompiles : (compileSource "package p;@doc(\"\\xff\")message M\x7b\x7d" [] false).toOption.any
      (·.outcome.isOk) = true := by decide +kernel
  obtain ⟨c, s, hc, hs⟩ := exists_outcome_eq_ok hcompiles
  -- the literal stands between the brackets of the annotation
  have hlit : DocLiteral "package p;@doc(\"\\xff\")message M\x7b\x7d"
      ⟨.textLit, 15, ⟨1, 16⟩, "\"\\xff\""⟩ := by
    have htokens : (lexFrom 0 0 .start .outside []
          "package p;@doc(\"\\xff\")message M\x7b\x7d").significant
        = [⟨.ident, 0, ⟨1, 1⟩, "package"⟩, ⟨.ident, 8, ⟨1, 9⟩, "p"⟩, ⟨.semicolon, 9, ⟨1, 10⟩, ";"⟩]
          ++ ⟨.atSign, 10, ⟨1, 11⟩, "@"⟩ :: ⟨.ident, 11, ⟨1, 12⟩, "doc"⟩
            :: ⟨.openParen, 14, ⟨1, 15⟩, "("⟩ :: ⟨.textLit, 15, ⟨1, 16⟩, "\"\\xff\""⟩
            :: [⟨.closeParen, 21, ⟨1, 22⟩, ")"⟩, ⟨.ident, 22, ⟨1, 23⟩, "message"⟩,
              ⟨.ident, 30, ⟨1, 31⟩, "M"⟩, ⟨.openCurl, 31, ⟨1, 32⟩, "\x7b"⟩,
              ⟨.closeCurl, 32, ⟨1, 33⟩, "\x7d"⟩] := by
      decide +kernel
    exact .mk (lex_eq (by decide) (by decide +kernel)) htokens rfl rfl rfl rfl
  have hold : textLitValue "\"\\xff\"" = .ok [0xFF] := rfl
  have hnew : textLitValue "\"\\xfe\"" = .ok [0xFE] := rfl
  obtain ⟨c', s', hc', hs', -, -, hiff⟩ := exists_compileSource_replaceToken hc hs hlit hold
    ⟨_, _, rfl, rfl⟩ hnew (lex_eq (by decide) (by decide +kernel))
  exact ⟨hold, hnew, c, s, c', s', hc, hs, hc', hs', hiff.mpr (by decide +kernel)⟩

end Idl
