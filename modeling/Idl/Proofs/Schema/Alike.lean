import Idl.Schema.Canonical
import Idl.Proofs.Numeric.Notation
import Mathlib.Data.List.Forall2
import Mathlib.Data.List.Nodup
import Mathlib.Tactic.MkIffOfInductiveProp

/-!
# What the canonical encoding tells apart

Two schemas are alike if they agree, in the order of declaration, on everything but where and how
they came about. Their canonical JSON values are then the same, and only then.

* §1 alike schemas, §2 sorting by keys,
* §3 constants and types, §4 annotations, §5 optional members, §6 declarations,
* §7 encodings.
-/

namespace Idl

/-! ## §1 Alike schemas -/

/-- Constants of the same kind with the same payload. All floating-point numbers that are not a
number have the same payload. -/
inductive Value.Alike : Value → Value → Prop
  | refl (v : Value) : Alike v v
  | nan {x y : Binary64} (hx : x.isNaN = true) (hy : y.isNaN = true) : Alike (.float x) (.float y)

/-- The values under a key, in order. -/
def Annot.valuesOf (a : Annot) (key : Bytes) : List Value :=
  (a.pairs.filter (·.key == key)).map (·.value)

/-- Annotations of the same name, with the same value and with the same values under each key. -/
@[mk_iff] structure Annot.Alike (a b : Annot) : Prop where
  name : a.name = b.name
  value : Option.Rel Value.Alike a.value b.value
  pairs : ∀ key, List.Forall₂ Value.Alike (a.valuesOf key) (b.valuesOf key)

/-- The same annotations in the same order, those apart that say where something was declared. -/
def AnnotsAlike (l m : List Annot) : Prop :=
  List.Forall₂ Annot.Alike (l.filter (·.name != Annot.sourceName))
    (m.filter (·.name != Annot.sourceName))

/-- Fields that differ in their positions at most. -/
@[mk_iff] structure Field.Alike (f g : Field) : Prop where
  name : f.name = g.name
  type : f.type = g.type
  optional : f.optional = g.optional
  number : f.number = g.number
  docs : f.docs = g.docs
  annots : AnnotsAlike f.annots g.annots

/-- Messages that differ in positions at most. -/
@[mk_iff] structure Message.Alike (m n : Message) : Prop where
  name : m.name = n.name
  docs : m.docs = n.docs
  annots : AnnotsAlike m.annots n.annots
  fields : List.Forall₂ Field.Alike m.fields n.fields

/-- Methods that differ in their positions at most. -/
@[mk_iff] structure Method.Alike (m n : Method) : Prop where
  name : m.name = n.name
  input : m.input = n.input
  output : m.output = n.output
  docs : m.docs = n.docs
  annots : AnnotsAlike m.annots n.annots

/-- Services that differ at most in positions, in what is generated for them and in what has been
filled in. -/
@[mk_iff] structure Service.Alike (s t : Service) : Prop where
  name : s.name = t.name
  docs : s.docs = t.docs
  annots : AnnotsAlike s.annots t.annots
  methods : List.Forall₂ Method.Alike s.methods t.methods

/-- Schemas with the same package and alike declarations in the same order. -/
@[mk_iff] structure Schema.Alike (s t : Schema) : Prop where
  package : s.package = t.package
  annots : AnnotsAlike s.annots t.annots
  messages : List.Forall₂ Message.Alike s.messages t.messages
  services : List.Forall₂ Service.Alike s.services t.services

/-! ## §2 Sorting by keys -/

namespace Bytes

theorem le_trans {a b c : Bytes} (h : le a b = true) (h' : le b c = true) : le a c = true := by
  simp only [le, Bool.not_eq_true', decide_eq_false_iff_not] at *
  exact List.le_trans h h'

theorem le_antisymm {a b : Bytes} (h : le a b = true) (h' : le b a = true) : a = b := by
  simp only [le, Bool.not_eq_true', decide_eq_false_iff_not] at *
  exact List.le_antisymm h h'

theorem le_total (a b : Bytes) : (le a b || le b a) = true := by
  simp only [le, Bool.or_eq_true, Bool.not_eq_true', decide_eq_false_iff_not]
  exact List.le_total a b

theorem le_refl (a : Bytes) : le a a = true := by
  simpa using le_total a a

end Bytes

/-- A stable sort keeps the order of elements that count as equal. -/
theorem filter_mergeSort {α : Type} {le : α → α → Bool}
    (htrans : ∀ a b c, le a b = true → le b c = true → le a c = true)
    (htotal : ∀ a b, (le a b || le b a) = true) {p : α → Bool}
    (hp : ∀ a b, p a = true → p b = true → le a b = true) (l : List α) :
    (l.mergeSort le).filter p = l.filter p := by
  have hsame : (l.filter p).Pairwise fun a b => le a b = true :=
    List.pairwise_of_forall_mem_list fun a ha b hb =>
      hp a b (List.mem_filter.mp ha).2 (List.mem_filter.mp hb).2
  -- sorting is stable, so entries that may stand either way keep their order
  have hsub := (List.sublist_mergeSort htrans htotal hsame List.filter_sublist).filter p
  rw [List.filter_filter] at hsub
  simp only [Bool.and_self] at hsub
  exact (hsub.eq_of_length ((l.mergeSort_perm le).filter p).length_eq.symm).symm

section Keyed

variable {β : Type}

/-- The order of keys. -/
def leKey (p q : Bytes × β) : Bool := Bytes.le p.1 q.1

theorem leKey_trans (p q r : Bytes × β) (h : leKey p q = true) (h' : leKey q r = true) :
    leKey p r = true :=
  Bytes.le_trans h h'

theorem leKey_total (p q : Bytes × β) : (leKey p q || leKey q p) = true := Bytes.le_total ..

/-- A stable sort keeps the order of entries with the same key. -/
theorem filter_mergeSort_leKey (l : List (Bytes × β)) (key : Bytes) :
    (l.mergeSort leKey).filter (fun p => p.1 == key) = l.filter fun p => p.1 == key := by
  refine filter_mergeSort leKey_trans leKey_total (fun p q hp hq => ?_) l
  have hp : p.1 = key := by simpa using hp
  have hq : q.1 = key := by simpa using hq
  rw [leKey, hp, hq]
  exact Bytes.le_refl key

/-- Sorted lists with the same entries under each key are the same. -/
theorem eq_of_filter_eq {l m : List (Bytes × β)} (hl : l.Pairwise fun p q => leKey p q = true)
    (hm : m.Pairwise fun p q => leKey p q = true)
    (h : ∀ key, (l.filter fun p => p.1 == key) = m.filter fun p => p.1 == key) : l = m := by
  induction l generalizing m with
  | nil =>
    cases m with
    | nil => rfl
    | cons q m => simpa using h q.1
  | cons p l ih =>
    cases m with
    | nil => simpa using h p.1
    | cons q m =>
      obtain ⟨hpl, hltail⟩ := List.pairwise_cons.mp hl
      obtain ⟨hqm, hmtail⟩ := List.pairwise_cons.mp hm
      -- each first entry occurs in the other list, so that their keys are the same
      have hp : p ∈ q :: m := by
        have hmem : p ∈ (p :: l).filter fun x => x.1 == p.1 := by simp
        rw [h] at hmem
        exact (List.mem_filter.mp hmem).1
      have hq : q ∈ p :: l := by
        have hmem : q ∈ (q :: m).filter fun x => x.1 == q.1 := by simp
        rw [← h] at hmem
        exact (List.mem_filter.mp hmem).1
      have hkey : p.1 = q.1 := by
        rcases List.mem_cons.mp hp with rfl | hp
        · rfl
        rcases List.mem_cons.mp hq with rfl | hq
        · rfl
        exact Bytes.le_antisymm (hpl q hq) (hqm p hp)
      have hfirst := h p.1
      simp only [List.filter_cons, beq_self_eq_true, if_true, hkey] at hfirst
      obtain ⟨rfl, -⟩ := List.cons.inj hfirst
      congr 1
      refine ih hltail hmtail fun key => ?_
      have hrest := h key
      simp only [List.filter_cons] at hrest
      split at hrest
      · exact (List.cons.inj hrest).2
      · exact hrest

/-- Lists are the same after a stable sort by keys exactly if they have the same entries under each
key, in the same order. -/
theorem mergeSort_leKey_eq_iff (l m : List (Bytes × β)) :
    l.mergeSort leKey = m.mergeSort leKey
      ↔ ∀ key, (l.filter fun p => p.1 == key) = m.filter fun p => p.1 == key := by
  constructor
  · intro h key
    rw [← filter_mergeSort_leKey l, h, filter_mergeSort_leKey]
  · intro h
    refine eq_of_filter_eq (List.pairwise_mergeSort leKey_trans leKey_total l)
      (List.pairwise_mergeSort leKey_trans leKey_total m) fun key => ?_
    rw [filter_mergeSort_leKey, filter_mergeSort_leKey, h key]

end Keyed

/-! ## §3 Constants and types -/

theorem Binary64.render_of_isNaN {x : Binary64} (h : x.isNaN = true) :
    x.render = FloatNotation.constant.nan := by
  rw [isNaN, beq_iff_eq] at h
  rw [render, h]
  rfl

/-- The first two octets of the name of a kind. -/
def Value.kindMark : Value → Bytes
  | .int _ => [0x69, 0x6E]
  | .uint _ => [0x75, 0x69]
  | .float _ => [0x66, 0x6C]
  | .bool _ => [0x62, 0x6F]
  | .text _ => [0x73, 0x74]
  | .ident _ => [0x69, 0x64]
  | .unassigned _ => [0x56, 0x61]

theorem Value.take_kindName (v : Value) : v.kindName.take 2 = v.kindMark := by
  cases v <;> rfl

/-- The kind and the payload of a constant are the constant. -/
theorem Value.alike_of_payload_eq {v w : Value} (hkind : v.kindName = w.kindName)
    (hpayload : v.payload = w.payload) : v.Alike w := by
  have hmark := congrArg (List.take 2) hkind
  rw [take_kindName, take_kindName] at hmark
  cases v <;> cases w
  case int.int m n => exact Bytes.ofInt_injective hpayload ▸ .refl _
  case uint.uint m n => exact Bytes.ofNat_injective hpayload ▸ .refl _
  case float.float x y =>
    rcases Binary64.eq_of_render_eq hpayload with rfl | ⟨hx, hy⟩
    · exact .refl _
    · exact .nan hx hy
  case bool.bool a b =>
    obtain rfl : a = b := by
      revert hpayload
      cases a <;> cases b <;> decide
    exact .refl _
  case text.text s t => exact (show s = t from hpayload) ▸ .refl _
  case ident.ident s t => exact (show s = t from hpayload) ▸ .refl _
  case unassigned.unassigned m n =>
    have hnumeral := List.append_cancel_left (List.append_cancel_right hkind)
    exact UInt8.toNat_inj.mp (Bytes.ofNat_injective hnumeral) ▸ .refl _
  -- different kinds have different names
  all_goals simp [kindMark] at hmark

theorem Scalar.name_injective {s t : Scalar} (h : s.name = t.name) : s = t := by
  have hnodup : (all.map name).Nodup := by decide
  have hall (s : Scalar) : s ∈ all := by cases s <;> decide
  exact List.inj_on_of_nodup_map hnodup (hall s) (hall t) h

/-- The name of a type without a meaning is no name of a built-in type. -/
theorem Ty.scalar_ne_unassigned (s : Scalar) (n : UInt8) :
    (Ty.scalar s).kindName ≠ (Ty.unassigned n).kindName := by
  intro h
  have hhead : s.name.head? = some 0x4B := congrArg List.head? h
  revert hhead
  cases s <;> decide

namespace Canonical

open Json (member)

/-- Two constants are written alike exactly when they are alike. -/
theorem value_eq_iff (v w : Value) : value v = value w ↔ v.Alike w := by
  constructor
  · intro h
    obtain ⟨hkind, hpayload⟩ : v.kindName = w.kindName ∧ v.payload = w.payload := by
      simpa [value] using h
    exact Value.alike_of_payload_eq hkind hpayload
  · intro h
    cases h with
    | refl => rfl
    -- all numbers that are none are written in one way
    | nan hx hy =>
      rw [value, value, Value.payload, Value.payload, Binary64.render_of_isNaN hx,
        Binary64.render_of_isNaN hy]
      rfl

/-- A type is told by its encoding. -/
theorem type_eq_iff (t u : Ty) : type t = type u ↔ t = u := by
  constructor
  · intro h
    cases t <;> cases u
    case scalar.scalar s t =>
      have hname : s.name = t.name := by simpa [type, Ty.kindName] using h
      rw [Scalar.name_injective hname]
    case message.message m n =>
      have hname : m = n := by simpa [type, member] using h
      rw [hname]
    case unassigned.unassigned m n =>
      have hname := List.append_cancel_left (List.append_cancel_right (Json.str.inj h))
      rw [UInt8.toNat_inj.mp (Bytes.ofNat_injective hname)]
    -- the name of a scalar is none of an unassigned type
    case scalar.unassigned s n => exact absurd (Json.str.inj h) (Ty.scalar_ne_unassigned s n)
    case unassigned.scalar n s => exact absurd (Json.str.inj h).symm (Ty.scalar_ne_unassigned s n)
    all_goals cases h
  · rintro rfl
    rfl

theorem type?_eq_iff (t u : Option Ty) : type? t = type? u ↔ t = u := by
  have hnull (t : Ty) : type t ≠ .null := by cases t <;> nofun
  cases t with
  | none =>
    cases u with
    | none => exact iff_of_true rfl rfl
    | some u => exact iff_of_false (fun h => hnull u h.symm) nofun
  | some t =>
    cases u with
    | none => exact iff_of_false (hnull t) nofun
    | some u => exact (type_eq_iff t u).trans Option.some_inj.symm

/-! ## §4 Optional members -/

/-- Two lists are written in the same way exactly if their items are, one by one. -/
theorem map_eq_map_iff {α : Type} {write : α → Json} {alike : α → α → Prop}
    (h : ∀ x y, write x = write y ↔ alike x y) (l m : List α) :
    l.map write = m.map write ↔ List.Forall₂ alike l m := by
  rw [← List.forall₂_eq_eq_eq, List.forall₂_map_left_iff, List.forall₂_map_right_iff]
  simp only [h]

theorem fst_of_mem_head?_listMember {key : Bytes} {items : List Json} {r : List (Bytes × Json)}
    {m : Bytes × Json} (h : m ∈ (listMember key items ++ r).head?) : m.1 = key ∨ m ∈ r.head? := by
  unfold listMember at h
  split at h
  · exact .inr h
  · cases h
    exact .inl rfl

/-- A list that may be left out can be told from what follows it by its key. -/
theorem listMember_append_eq_iff {key : Bytes} {x y : List Json} {r s : List (Bytes × Json)}
    (hr : ∀ m ∈ r.head?, m.1 ≠ key) (hs : ∀ m ∈ s.head?, m.1 ≠ key) :
    listMember key x ++ r = listMember key y ++ s ↔ x = y ∧ r = s := by
  constructor
  · intro h
    -- the member is left out when the list is empty, and then the next key differs
    unfold listMember at h
    split at h <;> split at h
    · next hx hy => exact ⟨(List.isEmpty_iff.mp hx).trans (List.isEmpty_iff.mp hy).symm, h⟩
    · exact absurd rfl (hr _ (by rw [show r = _ from h]; rfl))
    · exact absurd rfl (hs _ (by rw [← show _ = s from h]; rfl))
    · obtain ⟨hfirst, hrest⟩ := List.cons.inj h
      exact ⟨Json.arr.inj (Prod.mk.inj hfirst).2, hrest⟩
  · rintro ⟨rfl, rfl⟩
    rfl

theorem listMember_eq_iff (key : Bytes) (x y : List Json) :
    listMember key x = listMember key y ↔ x = y := by
  have h := listMember_append_eq_iff (x := x) (y := y) (r := []) (s := [])
    (fun _ h => nomatch h : ∀ m ∈ ([] : List (Bytes × Json)).head?, m.1 ≠ key)
    (fun _ h => nomatch h)
  simpa using h

/-! ## §5 Annotations -/

/-- The named values of annotations are the same in ascending order of their keys exactly if each
key has the same values in the same order. -/
theorem pairs_eq_iff (a b : Annot) :
    ((sortedPairs a.pairs).map fun p => Json.arr [.str p.key, value p.value])
        = ((sortedPairs b.pairs).map fun p => Json.arr [.str p.key, value p.value])
      ↔ ∀ key, List.Forall₂ Value.Alike (a.valuesOf key) (b.valuesOf key) := by
  -- entries with their keys
  let entry (p : Pair) : Bytes × Json := (p.key, value p.value)
  let write (e : Bytes × Json) : Json := .arr [.str e.1, e.2]
  have hwrite : Function.Injective write := by
    rintro ⟨k, v⟩ ⟨k', v'⟩ h
    simpa [write] using h
  have hsorted (l : List Pair) :
      ((sortedPairs l).map fun p => Json.arr [.str p.key, value p.value])
        = ((l.map entry).mergeSort leKey).map write := by
    rw [sortedPairs, ← List.map_mergeSort (f := entry) (r := fun p q => Bytes.le p.key q.key)
      (fun _ _ _ _ => rfl), List.map_map]
    rfl
  have hfilter (a : Annot) (key : Bytes) : ((a.pairs.map entry).filter fun e => e.1 == key)
      = ((a.valuesOf key).map value).map (Prod.mk key) := by
    rw [List.filter_map, Annot.valuesOf, List.map_map, List.map_map]
    refine List.map_congr_left fun p hp => ?_
    have hkey : p.key = key := by simpa [entry] using (List.mem_filter.mp hp).2
    rw [← hkey]
    rfl
  rw [hsorted, hsorted, (List.map_injective_iff.mpr hwrite).eq_iff, mergeSort_leKey_eq_iff]
  refine forall_congr' fun key => ?_
  rw [hfilter, hfilter, (List.map_injective_iff.mpr (Prod.mk_right_injective key)).eq_iff,
    map_eq_map_iff value_eq_iff]

theorem annot_eq_iff (a b : Annot) : annot a = annot b ↔ a.Alike b := by
  have hpairs : listMember "pairs"
        ((sortedPairs a.pairs).map fun p => Json.arr [.str p.key, value p.value])
      = listMember "pairs"
        ((sortedPairs b.pairs).map fun p => Json.arr [.str p.key, value p.value])
      ↔ ∀ key, List.Forall₂ Value.Alike (a.valuesOf key) (b.valuesOf key) := by
    rw [listMember_eq_iff, pairs_eq_iff]
  -- a value is told from named values by its key
  have hvalue {v : Json} {items : List Json} {r : List (Bytes × Json)} :
      listMember "pairs" items ≠ member "value" v :: r := by
    intro h
    have hhead : member "value" v ∈ (listMember "pairs" items ++ []).head? := by
      rw [List.append_nil, h]
      rfl
    rcases fst_of_mem_head?_listMember hhead with hkey | hnone
    · have hne : ("value" : Bytes) ≠ "pairs" := by decide
      exact hne hkey
    · cases hnone
  rw [Annot.alike_iff, ← hpairs]
  unfold annot
  dsimp only
  rw [Json.obj.injEq]
  cases a.value with
  | none =>
    cases b.value with
    | none => simp [member]
    | some w =>
      simp only [List.cons_append, List.nil_append, List.cons.injEq, hvalue, and_false, false_iff,
        not_and]
      exact fun _ h => nomatch h
  | some v =>
    cases b.value with
    | none =>
      simp only [List.cons_append, List.nil_append, List.cons.injEq, hvalue.symm, and_false,
        false_iff, not_and]
      exact fun _ h => nomatch h
    | some w => simp [member, value_eq_iff]

theorem annots_append_eq_iff {l m : List Annot} {r s : List (Bytes × Json)}
    (hr : ∀ x ∈ r.head?, x.1 ≠ "annotations") (hs : ∀ x ∈ s.head?, x.1 ≠ "annotations") :
    annots l ++ r = annots m ++ s ↔ AnnotsAlike l m ∧ r = s := by
  rw [annots, annots, listMember_append_eq_iff hr hs, map_eq_map_iff annot_eq_iff]
  rfl

/-! ## §6 Declarations -/

/-- The documentation and the annotations of an entity, and what follows them. -/
theorem entity_eq_iff {d e : List Bytes} {l m : List Annot} {r s : List (Bytes × Json)}
    (hr : ∀ x ∈ r.head?, x.1 ≠ "docs" ∧ x.1 ≠ "annotations")
    (hs : ∀ x ∈ s.head?, x.1 ≠ "docs" ∧ x.1 ≠ "annotations") :
    docs d ++ (annots l ++ r) = docs e ++ (annots m ++ s) ↔ d = e ∧ AnnotsAlike l m ∧ r = s := by
  -- what follows the documentation has other keys
  have hdocs {l : List Annot} {r : List (Bytes × Json)}
      (hr : ∀ x ∈ r.head?, x.1 ≠ "docs" ∧ x.1 ≠ "annotations") :
      ∀ x ∈ (annots l ++ r).head?, x.1 ≠ "docs" := by
    intro x hx
    rcases fst_of_mem_head?_listMember hx with hkey | hx
    · rw [hkey]
      decide
    · exact (hr x hx).1
  rw [docs, docs, listMember_append_eq_iff (hdocs hr) (hdocs hs),
    annots_append_eq_iff (fun x hx => (hr x hx).2) fun x hx => (hs x hx).2,
    (List.map_injective_iff.mpr fun _ _ => Json.str.inj).eq_iff]

theorem nat_inj {m n : Nat} : Json.nat m = .nat n ↔ m = n :=
  ⟨fun h => Bytes.ofNat_injective (Json.num.inj h), fun h => h ▸ rfl⟩

theorem field_eq_iff (f g : Field) : field f = field g ↔ f.Alike g := by
  have hrest := entity_eq_iff (d := f.docs) (e := g.docs) (l := f.annots) (m := g.annots)
    (r := []) (s := []) nofun nofun
  simp only [List.append_nil, and_true] at hrest
  simp only [field, member, List.cons_append, List.nil_append, Json.obj.injEq,
    List.cons.injEq, Prod.mk.injEq, true_and, Json.str.injEq, Json.bool.injEq, type_eq_iff, nat_inj,
    hrest, Field.alike_iff]

theorem method_eq_iff (m n : Method) : method m = method n ↔ m.Alike n := by
  have hrest := entity_eq_iff (d := m.docs) (e := n.docs) (l := m.annots) (m := n.annots)
    (r := []) (s := []) nofun nofun
  simp only [List.append_nil, and_true] at hrest
  simp only [method, member, List.cons_append, List.nil_append, Json.obj.injEq,
    List.cons.injEq, Prod.mk.injEq, true_and, Json.str.injEq, type?_eq_iff, hrest,
    Method.alike_iff]

/-- An entity that ends with the list of its parts. -/
theorem entity_list_eq_iff {d e : List Bytes} {l m : List Annot} {x y : List Json} (key : Bytes)
    (hkey : key ≠ "docs" ∧ key ≠ "annotations") :
    docs d ++ (annots l ++ [(key, Json.arr x)]) = docs e ++ (annots m ++ [(key, Json.arr y)])
      ↔ d = e ∧ AnnotsAlike l m ∧ x = y := by
  have hhead (x : List Json) : ∀ m ∈ ([(key, .arr x)] : List (Bytes × Json)).head?,
      m.1 ≠ "docs" ∧ m.1 ≠ "annotations" := by
    rintro _ ⟨⟩
    exact hkey
  rw [entity_eq_iff (hhead x) (hhead y)]
  simp

theorem message_eq_iff (m n : Message) : message m = message n ↔ m.Alike n := by
  simp only [message, member, List.append_assoc, List.cons_append, Json.obj.injEq, List.cons.injEq,
    Prod.mk.injEq, true_and, Json.str.injEq, entity_list_eq_iff "fields" (by decide),
    map_eq_map_iff field_eq_iff, Message.alike_iff]

theorem service_eq_iff (s t : Service) : service s = service t ↔ s.Alike t := by
  simp only [service, member, List.append_assoc, List.cons_append, Json.obj.injEq, List.cons.injEq,
    Prod.mk.injEq, true_and, Json.str.injEq, entity_list_eq_iff "methods" (by decide),
    map_eq_map_iff method_eq_iff, Service.alike_iff]

end Canonical

/-! ## §7 Encodings -/

theorem Service.Alike.encoding_eq {v w : Service} (h : v.Alike w) : w.encoding = v.encoding :=
  congrArg Json.compact ((Canonical.service_eq_iff v w).mpr h).symm

namespace Schema.Alike

variable {s t : Schema}

theorem typeMembers_eq (h : s.Alike t) : Canonical.typeMembers t = Canonical.typeMembers s := by
  have hannots : Canonical.annots t.annots = Canonical.annots s.annots := by
    have heq := (Canonical.annots_append_eq_iff (r := []) (s := []) nofun nofun).mpr ⟨h.annots, rfl⟩
    simpa using heq.symm
  have hmessages := (Canonical.map_eq_map_iff Canonical.message_eq_iff _ _).mpr h.messages
  rw [Canonical.typeMembers, Canonical.typeMembers, h.package, hannots, hmessages]

theorem typesEncoding_eq (h : s.Alike t) : t.typesEncoding = s.typesEncoding := by
  rw [typesEncoding, typesEncoding, h.typeMembers_eq]

theorem encoding_eq (h : s.Alike t) : t.encoding = s.encoding := by
  have hservices := (Canonical.map_eq_map_iff Canonical.service_eq_iff _ _).mpr h.services
  rw [encoding, encoding, h.typeMembers_eq, hservices]

end Schema.Alike

end Idl
