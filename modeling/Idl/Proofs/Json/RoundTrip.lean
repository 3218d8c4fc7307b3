import Idl.Proofs.Json.Strings
import Idl.Proofs.Numeric.Numerals

/-!
# JSON text reads back

The compact text of a value is read back to the value, so that it is the text of no other value; and
so is the indented text. Values that are read have well-formed strings only.

* §1 plain values, §2 numbers,
* §3 one piece at a time, §4 lists and objects, §5 compact text, §6 indented text,
* §7 values that are read.
-/

namespace Idl.Json

/-! ## §1 Plain values -/

/-- The values with well-formed strings and naturals for numbers, at most `d` levels deep. -/
inductive Plain : Nat → Json → Prop
  | null {d : Nat} : Plain d .null
  | bool {d : Nat} (b : Bool) : Plain d (.bool b)
  | nat {d : Nat} (n : Nat) : Plain d (.nat n)
  | str {d : Nat} {s : Bytes} (hs : Utf8.isValid s = true) : Plain d (.str s)
  | arr {d : Nat} {items : List Json} (hitems : ∀ v ∈ items, Plain d v) : Plain (d + 1) (.arr items)
  | obj {d : Nat} {members : List (Bytes × Json)}
      (hkeys : ∀ m ∈ members, Utf8.isValid m.1 = true) (hvalues : ∀ m ∈ members, Plain d m.2) :
      Plain (d + 1) (.obj members)

/-- A value may be less deep than allowed. -/
theorem Plain.mono {d e : Nat} {v : Json} (h : Plain d v) (hle : d ≤ e) : Plain e v := by
  induction h generalizing e with
  | null => exact .null
  | bool b => exact .bool b
  | nat n => exact .nat n
  | str hs => exact .str hs
  | arr _ ih =>
    obtain ⟨e, rfl⟩ := Nat.exists_eq_succ_of_ne_zero (show e ≠ 0 by omega)
    exact .arr fun v hv => ih v hv (by omega)
  | obj hkeys _ ih =>
    obtain ⟨e, rfl⟩ := Nat.exists_eq_succ_of_ne_zero (show e ≠ 0 by omega)
    exact .obj hkeys fun m hm => ih m hm (by omega)

/-! ## §2 Numbers -/

/-- What may follow a value in a text: a comma, a closing bracket or a new line. -/
def Ends (r : Bytes) : Prop := ∀ c ∈ r.head?, c = 0x2C ∨ c = 0x5D ∨ c = 0x7D ∨ c = 0x0A

/-- A value may end the text. -/
theorem ends_nil : Ends [] := nofun

/-- Or stand in front of one of these. -/
theorem ends_cons {c : UInt8} (h : c = 0x2C ∨ c = 0x5D ∨ c = 0x7D ∨ c = 0x0A) (r : Bytes) :
    Ends (c :: r) := by
  rintro _ ⟨⟩
  exact h

/-- The digits of a number end where it does. -/
theorem digitRun_ofNat (n : Nat) {r : Bytes} (hr : Ends r) :
    digitRun (Bytes.ofNat n ++ r) = (Bytes.ofNat n).length := by
  have hhead : ∀ c ∈ r.head?, Bytes.isDigit c = false := by
    intro c hc
    rcases hr c hc with rfl | rfl | rfl | rfl <;> decide
  rw [digitRun, (Bytes.takeWhile_isDigit (fun b hb => Bytes.isDigit_of_mem_ofNat hb) hhead).1]

/-- And so does the number. -/
theorem numberEnd?_ofNat (n : Nat) {r : Bytes} (hr : Ends r) :
    numberEnd? (Bytes.ofNat n ++ r) = some (Bytes.ofNat n).length := by
  have hrun := digitRun_ofNat n hr
  obtain ⟨c, t, hct⟩ := List.exists_cons_of_ne_nil (Bytes.ofNat_ne_nil n)
  have hdigit := Bytes.isDigit_of_mem_ofNat (n := n) (b := c) (by rw [hct]; simp)
  have hminus : c ≠ 0x2D := by rintro rfl; exact absurd hdigit (by decide)
  -- nothing that follows belongs to the number
  have hpoint : ∀ s, r ≠ 0x2E :: s := by
    rintro s rfl
    exact absurd (hr _ rfl) (by decide)
  have hexp : ∀ c ∈ r.head?, ¬ (c = 0x65 ∨ c = 0x45) := by
    intro c hc
    rcases hr c hc with rfl | rfl | rfl | rfl <;> decide
  rw [hct] at hrun ⊢
  unfold numberEnd?
  by_cases hzero : c = 0x30
  · subst hzero
    obtain rfl := Bytes.eq_nil_of_ofNat_eq_zero_cons hct
    cases r with
    | nil => decide
    | cons d s =>
      simp [hexp d rfl]
  · rw [List.cons_append, List.length_cons] at hrun
    cases r with
    | nil =>
      rw [List.append_nil] at hrun
      simp [hminus, hzero, hrun]
    | cons d s =>
      simp [hminus, hzero, hrun, hexp d rfl]

/-! ## §3 One piece at a time -/

/-- A skipped octet is no part of what follows. -/
theorem readFrom_skip (skip : Nat) (r : Reader) (t : Bytes) :
    readFrom skip r t = readFrom 0 r (t.drop skip) := by
  induction t generalizing skip with
  | nil => cases skip <;> rfl
  | cons c t ih =>
    cases skip with
    | zero => rfl
    | succ n => rw [readFrom, ih, List.drop_succ_cons]

/-- Goes on after a piece. -/
def resume (p : Progress) (rest : Bytes) : Option (Json × Bytes) :=
  match p with
  | .done v => some (v, rest)
  | .more r => readFrom 0 r rest

/-- The reader goes on with the rest. -/
@[simp] theorem resume_more (r : Reader) (rest : Bytes) :
    resume (.more r) rest = readFrom 0 r rest := rfl

/-- A value joins the list that is open. -/
@[simp] theorem put_list (items : List Json) (stack : List Frame) (v : Json) :
    Reader.put (.list items :: stack) v = .more ⟨.list (v :: items) :: stack, .commaOrClose⟩ := rfl

/-- Or it is the value of the last key. -/
@[simp] theorem put_object (members : List (Bytes × Json)) (key : Bytes) (stack : List Frame)
    (v : Json) : Reader.put (.object members key :: stack) v
      = .more ⟨.object ((key, v) :: members) [] :: stack, .commaOrClose⟩ := rfl

/-- A piece is taken in. -/
theorem readFrom_piece {c : UInt8} {t : Bytes} {r : Reader} {p : Piece} {n : Nat}
    {progress : Progress} (hblank : isBlank c = false) (hpiece : pieceAt? c t = some (p, n))
    (hstep : r.step p = some progress) :
    readFrom 0 r (c :: t) = resume progress (t.drop n) := by
  rw [readFrom, if_neg (by simp [hblank])]
  simp only [hpiece, hstep]
  cases progress with
  | done v => rfl
  | more r => exact readFrom_skip ..

/-- Blanks are passed over. -/
theorem readFrom_blanks {b : Bytes} (hb : ∀ c ∈ b, isBlank c = true) (r : Reader) (t : Bytes) :
    readFrom 0 r (b ++ t) = readFrom 0 r t := by
  induction b with
  | nil => rfl
  | cons c b ih =>
    obtain ⟨hc, hb⟩ := List.forall_mem_cons.mp hb
    rw [List.cons_append, readFrom, if_pos hc, ih hb]

/-- The piece of a string. -/
theorem pieceAt?_string (markup : Bool) {s : Bytes} (h : Utf8.isValid s = true) (rest : Bytes) :
    ∃ t, writeString markup s ++ rest = 0x22 :: t
      ∧ ∃ extra, pieceAt? 0x22 t = some (.scalar (.str s), extra) ∧ t.drop extra = rest := by
  obtain ⟨t, htext, hread, hend⟩ := writeString_eq markup h
  refine ⟨t ++ 0x22 :: rest, by rw [htext]; simp, t.length + 1, ?_, by simp⟩
  rw [pieceAt?, hend]
  simp [hread]

/-- The piece of a number. -/
theorem pieceAt?_nat (n : Nat) {rest : Bytes} (hrest : Ends rest) :
    ∃ c t, Bytes.ofNat n ++ rest = c :: t ∧ isBlank c = false
      ∧ ∃ extra, pieceAt? c t = some (.scalar (.nat n), extra) ∧ t.drop extra = rest := by
  obtain ⟨c, t, hct⟩ := List.exists_cons_of_ne_nil (Bytes.ofNat_ne_nil n)
  have hdigit := Bytes.isDigit_of_mem_ofNat (n := n) (b := c) (by rw [hct]; simp)
  have hnumber := numberEnd?_ofNat n hrest
  have htake : (Bytes.ofNat n ++ rest).take (Bytes.ofNat n).length = Bytes.ofNat n := List.take_left
  rw [hct] at hnumber htake
  refine ⟨c, t ++ rest, by rw [hct]; rfl, ?_, t.length, ?_, List.drop_left⟩
  · simp only [Bytes.isDigit, Bool.and_eq_true, decide_eq_true_eq, UInt8.le_iff_toNat_le,
      UInt8.reduceToNat] at hdigit
    simp only [isBlank, Bool.or_eq_false_iff, beq_eq_false_iff_ne, Ne, ← UInt8.toNat_inj,
      UInt8.reduceToNat]
    omega
  · unfold pieceAt?
    split
    -- the first byte is a digit, which leaves the case for numbers
    case h_11 =>
      rw [← List.cons_append, hnumber, Option.map_some, htake, List.length_cons,
        Nat.add_sub_cancel, nat, hct]
    all_goals exact absurd hdigit (by decide)

/-! ## §4 Lists and objects -/

/-- Where a value may stand. -/
def Expect.TakesValue (e : Expect) : Prop := e = .value ∨ e = .valueOrClose

/-- A value where one may stand. -/
theorem step_scalar {stack : List Frame} {e : Expect} (h : e.TakesValue) (v : Json) :
    Reader.step ⟨stack, e⟩ (.scalar v) = some (Reader.put stack v) := by
  rcases h with rfl | rfl <;> rfl

/-- A list is opened, if it is not too deep. -/
theorem step_openList {stack : List Frame} {e : Expect} (h : e.TakesValue)
    (hdepth : stack.length < maxDepth) :
    Reader.step ⟨stack, e⟩ .openList = some (.more ⟨.list [] :: stack, .valueOrClose⟩) := by
  rcases h with rfl | rfl <;> simp [Reader.step, Reader.push, hdepth]

/-- So is an object. -/
theorem step_openObject {stack : List Frame} {e : Expect} (h : e.TakesValue)
    (hdepth : stack.length < maxDepth) :
    Reader.step ⟨stack, e⟩ .openObject = some (.more ⟨.object [] [] :: stack, .keyOrClose⟩) := by
  rcases h with rfl | rfl <;> simp [Reader.step, Reader.push, hdepth]

/-- A key where one may stand. -/
theorem step_key {stack : List Frame} {e : Expect} (h : e = .key ∨ e = .keyOrClose)
    (done : List (Bytes × Json)) (key : Bytes) :
    Reader.step ⟨.object done [] :: stack, e⟩ (.scalar (.str key))
      = some (.more ⟨.object done key :: stack, .colon⟩) := by
  rcases h with rfl | rfl <;> rfl

/-- A text is read as a value, wherever a value may stand. -/
def ReadsBack (d : Nat) (t : Bytes) (v : Json) : Prop :=
  ∀ (stack : List Frame) (e : Expect) (rest : Bytes), e.TakesValue →
    stack.length + d ≤ maxDepth → Ends rest →
    readFrom 0 ⟨stack, e⟩ (t ++ rest) = resume (Reader.put stack v) rest

/-- A text is read as a member, wherever a member may stand. -/
def ReadsMember (d : Nat) (t : Bytes) (m : Bytes × Json) : Prop :=
  ∀ (stack : List Frame) (done : List (Bytes × Json)) (e : Expect) (rest : Bytes),
    e = .key ∨ e = .keyOrClose → stack.length + 1 + d ≤ maxDepth → Ends rest →
    readFrom 0 ⟨.object done [] :: stack, e⟩ (t ++ rest)
      = readFrom 0 ⟨.object (m :: done) [] :: stack, .commaOrClose⟩ rest

/-- Blanks in front are passed over. -/
theorem ReadsBack.of_blanks {d : Nat} {b t : Bytes} {v : Json} (hb : ∀ c ∈ b, isBlank c = true)
    (h : ReadsBack d t v) : ReadsBack d (b ++ t) v := by
  intro stack e rest he hdepth hrest
  rw [List.append_assoc, readFrom_blanks hb, h stack e rest he hdepth hrest]

/-- A member is its name, a colon and its value, with blanks in front of the name and of the
value. -/
theorem ReadsBack.member {d : Nat} {t key : Bytes} {v : Json} (markup : Bool) {b b' : Bytes}
    (hb : ∀ c ∈ b, isBlank c = true) (hb' : ∀ c ∈ b', isBlank c = true)
    (hkey : Utf8.isValid key = true) (h : ReadsBack d t v) :
    ReadsMember d (b ++ (writeString markup key ++ 0x3A :: (b' ++ t))) (key, v) := by
  intro stack done e rest he hdepth hrest
  have htext : b ++ (writeString markup key ++ 0x3A :: (b' ++ t)) ++ rest
      = b ++ (writeString markup key ++ 0x3A :: (b' ++ (t ++ rest))) := by simp
  obtain ⟨s, hs, extra, hpiece, hdrop⟩ :=
    pieceAt?_string markup hkey (0x3A :: (b' ++ (t ++ rest)))
  -- blanks, the key, the colon, blanks again, and then the value
  rw [htext, readFrom_blanks hb, hs, readFrom_piece (by decide) hpiece (step_key he done key),
    hdrop, resume_more, readFrom_piece (p := .colon) (n := 0) (by decide) rfl rfl, List.drop_zero,
    resume_more, readFrom_blanks hb', h (.object done key :: stack) .value rest (.inl rfl) hdepth hrest]
  rfl

/-- Texts with commas between them. -/
def joined {α : Type} (write : α → Bytes) : List α → Bytes
  | [] => []
  | [a] => write a
  | a :: r => write a ++ 0x2C :: joined write r

/-- Two items have a comma between them. -/
theorem joined_cons_cons {α : Type} (write : α → Bytes) (a b : α) (r : List α) :
    joined write (a :: b :: r) = write a ++ 0x2C :: joined write (b :: r) := rfl

/-- What may stand in front of a closing bracket. -/
def Gap (b : Bytes) : Prop := b = [] ∨ ∃ depth, b = newLine depth

/-- A new line with its indent is blank. -/
theorem isBlank_of_mem_newLine {depth : Nat} : ∀ c ∈ newLine depth, isBlank c = true := by
  refine List.forall_mem_cons.mpr ⟨rfl, fun c hc => ?_⟩
  rw [List.eq_of_mem_replicate hc]
  rfl

/-- A gap is blank. -/
theorem Gap.isBlank {b : Bytes} (h : Gap b) : ∀ c ∈ b, isBlank c = true := by
  rcases h with rfl | ⟨depth, rfl⟩
  · nofun
  · exact isBlank_of_mem_newLine

/-- In front of a gap a value may end. -/
theorem Gap.ends {b : Bytes} (h : Gap b) {c : UInt8} (hc : c = 0x5D ∨ c = 0x7D) (rest : Bytes) :
    Ends (b ++ c :: rest) := by
  rcases h with rfl | ⟨depth, rfl⟩
  · exact ends_cons (by rcases hc with rfl | rfl <;> decide) rest
  · exact ends_cons (by decide) _

/-- The items of a list are read one after the other. -/
theorem readsBack_items {d : Nat} {write : Json → Bytes} {items : List Json}
    (h : ∀ v ∈ items, ReadsBack d (write v) v) (hne : items ≠ []) {stack : List Frame}
    (done : List Json) {e : Expect} (he : e.TakesValue) (hdepth : stack.length + 1 + d ≤ maxDepth)
    {gap : Bytes} (hgap : Gap gap) (rest : Bytes) :
    readFrom 0 ⟨.list done :: stack, e⟩ (joined write items ++ (gap ++ 0x5D :: rest))
      = resume (Reader.put stack (.arr (done.reverse ++ items))) rest := by
  induction items generalizing done e with
  | nil => exact absurd rfl hne
  | cons v items ih =>
    have hv := h v List.mem_cons_self (.list done :: stack) e
    cases items with
    -- the last item, behind which the list closes
    | nil =>
      rw [joined, hv _ he hdepth (hgap.ends (.inl rfl) rest), put_list, resume_more,
        readFrom_blanks hgap.isBlank,
        readFrom_piece (p := .closeList) (n := 0) (by decide) rfl rfl]
      simp
    -- a comma, and the others
    | cons w items =>
      rw [joined_cons_cons, List.append_assoc, List.cons_append,
        hv _ he hdepth (ends_cons (by decide) _)]
      rw [put_list, resume_more, readFrom_piece (p := .comma) (n := 0) (by decide) rfl rfl]
      rw [resume_more, List.drop_zero, ih (fun x hx => h x (List.mem_cons_of_mem _ hx)) (by simp) _
        (.inl rfl)]
      simp

/-- The members of an object are read one after the other. -/
theorem readsBack_members {d : Nat} {write : Bytes × Json → Bytes} {members : List (Bytes × Json)}
    (h : ∀ m ∈ members, ReadsMember d (write m) m) (hne : members ≠ []) {stack : List Frame}
    (done : List (Bytes × Json)) {e : Expect} (he : e = .key ∨ e = .keyOrClose)
    (hdepth : stack.length + 1 + d ≤ maxDepth) {gap : Bytes} (hgap : Gap gap) (rest : Bytes) :
    readFrom 0 ⟨.object done [] :: stack, e⟩ (joined write members ++ (gap ++ 0x7D :: rest))
      = resume (Reader.put stack (.obj (done.reverse ++ members))) rest := by
  induction members generalizing done e with
  | nil => exact absurd rfl hne
  | cons m members ih =>
    have hm := h m List.mem_cons_self stack done e
    cases members with
    -- the last member, behind which the object closes
    | nil =>
      rw [joined, hm _ he hdepth (hgap.ends (.inr rfl) rest), readFrom_blanks hgap.isBlank,
        readFrom_piece (p := .closeObject) (n := 0) (by decide) rfl rfl]
      simp
    -- a comma, and the others
    | cons m' members =>
      rw [joined_cons_cons, List.append_assoc, List.cons_append,
        hm _ he hdepth (ends_cons (by decide) _)]
      rw [readFrom_piece (p := .comma) (n := 0) (by decide) rfl rfl]
      rw [resume_more, List.drop_zero, ih (fun x hx => h x (List.mem_cons_of_mem _ hx)) (by simp) _
        (.inl rfl)]
      simp

/-- A list is its items between brackets, which may stand on lines of their own. -/
theorem readsBack_arr {d : Nat} {write : Json → Bytes} {items : List Json}
    (h : ∀ v ∈ items, ReadsBack d (write v) v) {gap : Bytes} (hgap : Gap gap) :
    ReadsBack (d + 1) (0x5B :: (joined write items ++ (gap ++ [0x5D]))) (.arr items) := by
  intro stack e rest he hdepth hrest
  have htext : 0x5B :: (joined write items ++ (gap ++ [0x5D])) ++ rest
      = 0x5B :: (joined write items ++ (gap ++ 0x5D :: rest)) := by simp
  rw [htext, readFrom_piece (p := .openList) (n := 0) (by decide) rfl (step_openList he (by omega)),
    resume_more, List.drop_zero]
  -- an empty list is closed at once, and its gap is skipped
  by_cases hne : items = []
  · subst hne
    rw [joined, List.nil_append, readFrom_blanks hgap.isBlank,
      readFrom_piece (p := .closeList) (n := 0) (by decide) rfl rfl]
    rfl
  · exact readsBack_items h hne [] (.inr rfl) (by omega) hgap rest

/-- An object is its members between brackets, which may stand on lines of their own. -/
theorem readsBack_obj {d : Nat} {write : Bytes × Json → Bytes} {members : List (Bytes × Json)}
    (h : ∀ m ∈ members, ReadsMember d (write m) m) {gap : Bytes} (hgap : Gap gap) :
    ReadsBack (d + 1) (0x7B :: (joined write members ++ (gap ++ [0x7D]))) (.obj members) := by
  intro stack e rest he hdepth hrest
  have htext : 0x7B :: (joined write members ++ (gap ++ [0x7D])) ++ rest
      = 0x7B :: (joined write members ++ (gap ++ 0x7D :: rest)) := by simp
  rw [htext, readFrom_piece (p := .openObject) (n := 0) (by decide) rfl
    (step_openObject he (by omega)), resume_more, List.drop_zero]
  -- an empty object is closed at once
  by_cases hne : members = []
  · subst hne
    rw [joined, List.nil_append, readFrom_blanks hgap.isBlank,
      readFrom_piece (p := .closeObject) (n := 0) (by decide) rfl rfl]
    rfl
  · exact readsBack_members h hne [] (.inr rfl) (by omega) hgap rest

/-- The word for null. -/
theorem readsBack_null (d : Nat) : ReadsBack d "null" .null := by
  intro stack e rest he hdepth hrest
  exact readFrom_piece (c := 0x6E) (p := .scalar .null) (n := 3) (by decide) rfl (step_scalar he _)

/-- The word for true. -/
theorem readsBack_true (d : Nat) : ReadsBack d "true" (.bool true) := by
  intro stack e rest he hdepth hrest
  exact readFrom_piece (c := 0x74) (p := .scalar (.bool true)) (n := 3) (by decide) rfl
    (step_scalar he _)

/-- The word for false. -/
theorem readsBack_false (d : Nat) : ReadsBack d "false" (.bool false) := by
  intro stack e rest he hdepth hrest
  exact readFrom_piece (c := 0x66) (p := .scalar (.bool false)) (n := 4) (by decide) rfl
    (step_scalar he _)

/-- A natural number. -/
theorem readsBack_nat (d n : Nat) : ReadsBack d (Bytes.ofNat n) (.nat n) := by
  intro stack e rest he hdepth hrest
  obtain ⟨c, t, htext, hblank, extra, hpiece, hdrop⟩ := pieceAt?_nat n hrest
  rw [htext, readFrom_piece hblank hpiece (step_scalar he _), hdrop]

/-- A text in quotes. -/
theorem readsBack_str (d : Nat) (markup : Bool) {s : Bytes} (hs : Utf8.isValid s = true) :
    ReadsBack d (writeString markup s) (.str s) := by
  intro stack e rest he hdepth hrest
  obtain ⟨t, htext, extra, hpiece, hdrop⟩ := pieceAt?_string markup hs rest
  rw [htext, readFrom_piece (by decide) hpiece (step_scalar he _), hdrop]

/-! ## §5 Compact text -/

/-- A compact list is its items with commas between them. -/
theorem compactItems_eq (items : List Json) : compactItems items = joined compact items := by
  induction items with
  | nil => rfl
  | cons v items ih =>
    cases items with
    | nil => rfl
    | cons w items =>
      rw [compactItems, ih, joined_cons_cons, List.append_assoc]
      · rfl
      · simp

/-- The compact text of a member. -/
def compactMember (m : Bytes × Json) : Bytes := writeString true m.1 ++ 0x3A :: m.2.compact

/-- A compact object is its members with commas between them. -/
theorem compactMembers_eq (members : List (Bytes × Json)) :
    compactMembers members = joined compactMember members := by
  induction members with
  | nil => rfl
  | cons m members ih =>
    obtain ⟨key, v⟩ := m
    -- the last member is followed by no comma
    cases members with
    | nil =>
      rw [compactMembers, joined, compactMember, List.append_assoc]
      rfl
    | cons m' members =>
      rw [compactMembers, ih, joined_cons_cons, compactMember]
      · simp only [List.append_assoc]
        rfl
      · simp

/-- The compact text of a plain value is read as the value. -/
theorem Plain.readsBack {d : Nat} {v : Json} (h : Plain d v) : ReadsBack d v.compact v := by
  induction h with
  | null => exact readsBack_null _
  | bool b =>
    cases b with
    | false => exact readsBack_false _
    | true => exact readsBack_true _
  | nat n => exact readsBack_nat _ n
  | str hs => exact readsBack_str _ true hs
  | @arr d items hitems ih =>
    rw [compact, compactItems_eq]
    exact readsBack_arr ih (.inl rfl)
  | @obj d members hkeys hvalues ih =>
    rw [compact, compactMembers_eq]
    -- the compact form leaves no blanks around a member
    have hnone : ∀ c ∈ ([] : Bytes), isBlank c = true := List.forall_mem_nil _
    exact readsBack_obj (fun m hm => (ih m hm).member true hnone hnone (hkeys m hm)) (.inl rfl)

/-- The text of a plain value is the text of the value alone. -/
theorem readWhole?_compact {d : Nat} {v : Json} (h : Plain d v) (hd : d ≤ maxDepth) :
    readWhole? v.compact = some v := by
  have hread := h.readsBack [] .value [] (.inl rfl) (by simpa using hd) ends_nil
  rw [List.append_nil] at hread
  rw [readWhole?, Reader.start, hread]
  rfl

/-- Different values are written differently. -/
theorem Plain.eq_of_compact_eq {d : Nat} {v w : Json} (hv : Plain d v) (hw : Plain d w)
    (hd : d ≤ maxDepth) (h : v.compact = w.compact) : v = w := by
  have hread := readWhole?_compact hv hd
  rw [h, readWhole?_compact hw hd] at hread
  exact (Option.some.inj hread).symm

/-! ## §6 Indented text -/

/-- An indented list has a new line before each item. -/
theorem indentedItems_eq (markup : Bool) (depth : Nat) (items : List Json) :
    indentedItems markup depth items
      = joined (fun v => newLine depth ++ v.indented markup depth) items := by
  induction items with
  | nil => rfl
  | cons v items ih =>
    cases items with
    | nil => rfl
    | cons w items =>
      rw [indentedItems, ih, joined_cons_cons, List.append_assoc _ (Bytes.ofString ",")]
      · rfl
      · simp

/-- The text of a member on its line. -/
def indentedMember (markup : Bool) (depth : Nat) (m : Bytes × Json) : Bytes :=
  newLine depth ++ (writeString markup m.1 ++ 0x3A :: ([0x20] ++ m.2.indented markup depth))

/-- An indented object has a new line before each member. -/
theorem indentedMembers_eq (markup : Bool) (depth : Nat) (members : List (Bytes × Json)) :
    indentedMembers markup depth members = joined (indentedMember markup depth) members := by
  induction members with
  | nil => rfl
  | cons m members ih =>
    obtain ⟨key, v⟩ := m
    cases members with
    | nil =>
      rw [indentedMembers, joined, indentedMember]
      simp only [List.append_assoc]
      rfl
    | cons m' members =>
      rw [indentedMembers, ih, joined_cons_cons, indentedMember]
      · simp only [List.append_assoc]
        rfl
      · simp

/-- The indented text of a plain value is read as the value. -/
theorem Plain.readsBack_indented {d : Nat} {v : Json} (h : Plain d v) (markup : Bool)
    (depth : Nat) : ReadsBack d (v.indented markup depth) v := by
  induction h generalizing depth with
  | null => exact readsBack_null _
  | bool b =>
    cases b with
    | false => exact readsBack_false _
    | true => exact readsBack_true _
  | nat n => exact readsBack_nat _ n
  | str hs => exact readsBack_str _ markup hs
  -- an empty list is written as in the compact form
  | @arr d items hitems ih =>
    cases items with
    | nil =>
      have hnone : ∀ v ∈ [], ReadsBack d (compact v) v := List.forall_mem_nil _
      exact readsBack_arr hnone (.inl rfl)
    | cons v items =>
      rw [indented, indentedItems_eq, List.append_assoc, List.append_assoc]
      -- each entry stands on a line of its own, and the closing bracket on another
      exact readsBack_arr (fun w hw => (ih w hw (depth + 1)).of_blanks isBlank_of_mem_newLine)
        (.inr ⟨depth, rfl⟩)
  | @obj d members hkeys hvalues ih =>
    cases members with
    | nil =>
      have hnone : ∀ m ∈ [], ReadsMember d (compactMember m) m := List.forall_mem_nil _
      exact readsBack_obj hnone (.inl rfl)
    | cons m members =>
      rw [indented, indentedMembers_eq, List.append_assoc, List.append_assoc]
      -- a space stands behind the colon
      exact readsBack_obj (fun x hx => (ih x hx (depth + 1)).member markup isBlank_of_mem_newLine
        (List.forall_mem_singleton.mpr rfl) (hkeys x hx)) (.inr ⟨depth, rfl⟩)

/-- The first value of a text that begins with the text of a plain value. -/
theorem ReadsBack.readFirst? {d : Nat} {t : Bytes} {v : Json} (h : ReadsBack d t v)
    (hd : d ≤ maxDepth) {rest : Bytes} (hrest : Ends rest) : Json.readFirst? (t ++ rest) = some v := by
  rw [Json.readFirst?, Reader.start, h [] .value rest (.inl rfl) (by simpa using hd) hrest]
  rfl

/-! ## §7 Values that are read -/

/-- The values whose strings are well formed, whatever the names of their members. -/
inductive Textual : Json → Prop
  | null : Textual .null
  | bool (b : Bool) : Textual (.bool b)
  | num (t : Bytes) : Textual (.num t)
  | str {s : Bytes} (hs : Utf8.isValid s = true) : Textual (.str s)
  | arr {items : List Json} (h : ∀ v ∈ items, Textual v) : Textual (.arr items)
  | obj {members : List (Bytes × Json)} (h : ∀ m ∈ members, Textual m.2) : Textual (.obj members)

/-- What has been read so far is of well-formed strings. -/
def Frame.Textual : Frame → Prop
  | .list items => ∀ v ∈ items, Json.Textual v
  | .object members _ => ∀ m ∈ members, Json.Textual m.2

/-- The same for the outcome of a piece. -/
def Progress.Textual : Progress → Prop
  | .more r => ∀ f ∈ r.stack, f.Textual
  | .done v => Json.Textual v

/-- The same for a piece. -/
def Piece.Textual : Piece → Prop
  | .scalar v => Json.Textual v
  | _ => True

/-- A piece that was read holds valid text. -/
theorem textual_of_pieceAt? {c : UInt8} {r : Bytes} {p : Piece} {n : Nat}
    (h : pieceAt? c r = some (p, n)) : p.Textual := by
  -- one of the three words
  have hword {w : Bytes} {v : Json} (hv : Textual v)
      (h : (if Bytes.startsWith (c :: r) w then some (Piece.scalar v, w.length - 1) else none)
        = some (p, n)) : p.Textual := by
    split at h
    · cases h
      exact hv
    · cases h
  unfold pieceAt? at h
  dsimp only at h
  split at h
  -- a string, whose escapes are decoded to valid text
  case h_7 =>
    obtain ⟨k, hk, hp⟩ := Option.map_eq_some_iff.mp h
    cases hp
    exact .str (isValid_unescape hk)
  case h_8 => exact hword .null h
  case h_9 => exact hword (.bool true) h
  case h_10 => exact hword (.bool false) h
  -- a number
  case h_11 =>
    obtain ⟨k, hk, hp⟩ := Option.map_eq_some_iff.mp h
    cases hp
    exact .num _
  all_goals
    cases h
    trivial

theorem textual_put {stack : List Frame} {v : Json} (hstack : ∀ f ∈ stack, f.Textual)
    (hv : Textual v) : (Reader.put stack v).Textual := by
  cases stack with
  | nil => exact hv
  | cons f stack =>
    obtain ⟨hf, hrest⟩ := List.forall_mem_cons.mp hstack
    cases f with
    | list items => exact List.forall_mem_cons.mpr ⟨List.forall_mem_cons.mpr ⟨hv, hf⟩, hrest⟩
    | object members key =>
      exact List.forall_mem_cons.mpr ⟨List.forall_mem_cons.mpr ⟨hv, hf⟩, hrest⟩

/-- A step keeps strings well formed. -/
theorem textual_step {r : Reader} {p : Piece} {progress : Progress}
    (hr : ∀ f ∈ r.stack, f.Textual) (hp : p.Textual) (h : r.step p = some progress) :
    progress.Textual := by
  obtain ⟨stack, e⟩ := r
  -- one more frame on top of the others
  have hpush {f : Frame} {e' : Expect} (hf : f.Textual)
      (h : Reader.push ⟨stack, e⟩ f e' = some progress) : progress.Textual := by
    unfold Reader.push at h
    split at h
    · cases h
      exact List.forall_mem_cons.mpr ⟨hf, hr⟩
    · cases h
  cases p with
  | openList =>
    simp only [Reader.step] at h
    split at h
    · exact hpush (f := .list []) nofun h
    · cases h
  | openObject =>
    simp only [Reader.step] at h
    split at h
    · exact hpush (f := .object [] []) nofun h
    · cases h
  | closeList =>
    simp only [Reader.step] at h
    split at h
    · obtain ⟨hf, hrest⟩ := List.forall_mem_cons.mp hr
      split at h
      · cases h
        exact textual_put hrest (.arr fun v hv => hf v (List.mem_reverse.mp hv))
      · cases h
    · cases h
  | closeObject =>
    simp only [Reader.step] at h
    split at h
    · obtain ⟨hf, hrest⟩ := List.forall_mem_cons.mp hr
      split at h
      · cases h
        exact textual_put hrest (.obj fun m hm => hf m (List.mem_reverse.mp hm))
      · cases h
    · cases h
  | comma =>
    simp only [Reader.step] at h
    split at h
    · cases h
    · split at h <;> cases h <;> exact hr
  | colon =>
    simp only [Reader.step] at h
    split at h <;> cases h
    exact hr
  | scalar v =>
    simp only [Reader.step] at h
    split at h
    · cases h
      exact textual_put hr hp
    split at h
    · split at h
      · cases h
        obtain ⟨hf, hrest⟩ := List.forall_mem_cons.mp hr
        exact List.forall_mem_cons.mpr ⟨hf, hrest⟩
      · cases h
    · cases h

/-- A value that is read is of well-formed strings. -/
theorem textual_of_readFrom {skip : Nat} {r : Reader} {t rest : Bytes} {v : Json}
    (hr : ∀ f ∈ r.stack, f.Textual) (h : readFrom skip r t = some (v, rest)) : Textual v := by
  induction t generalizing skip r with
  | nil => cases h
  | cons c t ih =>
    cases skip with
    | succ n => exact ih hr h
    | zero =>
      rw [readFrom] at h
      split at h
      · exact ih hr h
      split at h
      · cases h
      next p extra hpiece =>
        -- the value is put together of pieces, and each of them is textual
        have hp := textual_of_pieceAt? hpiece
        split at h
        · cases h
        · next hstep =>
          cases h
          exact textual_step hr hp hstep
        · next hstep => exact ih (textual_step hr hp hstep) h

end Idl.Json
