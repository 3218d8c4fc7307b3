import Idl.Proofs.Document.Textual
import Idl.Proofs.Numeric.Reading

/-!
# Values that conform as they are

Checking a value against a shape and settling its members changes nothing if each member of an
object occurs once, under the name that it is compared by. Such values are built up here part by
part; along with it goes how deeply they are nested, since text is read to a limited depth only.

* §1 numbers, §2 lists, §3 objects, §4 members that may be left out.
-/

namespace Idl.Json

/-- The value has a shape, is settled as it stands, and is plain up to a depth. -/
structure Fits (d : Nat) (shape : Shape) (v : Json) : Prop where
  plain : Plain d v
  faultless : fault? shape v = none
  settled : settle shape v = v

theorem Fits.conform {d : Nat} {shape : Shape} {v : Json} (h : Fits d shape v) :
    conform shape v = .ok v := by
  rw [Json.conform, h.faultless, h.settled]

/-! ## §1 Texts, truth values and numbers -/

theorem fits_null (d : Nat) (shape : Shape) : Fits d shape .null := by
  refine ⟨.null, ?_, ?_⟩
  · rw [fault?.eq_def]
  · rw [settle, Slot.write.eq_def]
    rfl

theorem fits_str {d : Nat} {s : Bytes} (hs : Utf8.isValid s = true) : Fits d .text (.str s) :=
  ⟨.str hs, by rw [fault?.eq_def], by rw [settle, Slot.write.eq_def]; rfl⟩

theorem fits_bool (d : Nat) (b : Bool) : Fits d .bool (.bool b) :=
  ⟨.bool b, by rw [fault?.eq_def], by rw [settle, Slot.write.eq_def]; rfl⟩

theorem wholeNumber?_ofNat (n : Nat) : wholeNumber? (Bytes.ofNat n) = some (n : Int) := by
  obtain ⟨c, r, hcons, hc⟩ := exists_ofNat_eq_cons n
  have hall : (Bytes.ofNat n).all Bytes.isDigit = true :=
    List.all_eq_true.mpr fun b hb => Bytes.isDigit_of_mem_ofNat hb
  unfold wholeNumber?
  split
  · next heq =>
    rw [hcons] at heq
    cases heq
    exact absurd rfl (ne_sign_of_isDigit hc).1
  · rw [if_pos hall, Bytes.toNat_ofNat]

theorem fits_nat {d n hi : Nat} (hn : n < hi) : Fits d (.whole 0 hi) (.nat n) := by
  obtain ⟨c, r, hcons, hc⟩ := exists_ofNat_eq_cons n
  refine ⟨.nat n, ?_, by rw [settle, nat, Slot.write.eq_def]; rfl⟩
  have hsign : (Bytes.ofNat n).head? ≠ some 0x2D := by
    rw [hcons]
    rintro ⟨⟩
    exact (ne_sign_of_isDigit hc).1 rfl
  rw [nat, fault?.eq_def]
  simp only [wholeNumber?_ofNat]
  rw [if_pos]
  simp [hn, hsign]

@[simp] theorem asNat_nat (n : Nat) : (nat n).asNat = n := by
  rw [asNat, nat, asInt, wholeNumber?_ofNat, Option.getD_some, Int.toNat_natCast]

/-! ## §2 Lists -/

theorem itemsFault?_eq_none {item : Shape} {items : List Json}
    (h : ∀ v ∈ items, fault? item v = none) : itemsFault? item items = none := by
  induction items with
  | nil => rw [itemsFault?]
  | cons v r ih =>
    obtain ⟨hv, hr⟩ := List.forall_mem_cons.mp h
    rw [itemsFault?, hv]
    exact ih hr

theorem toItems_writeItems {item : Shape} {items : List Json} (h : ∀ v ∈ items, settle item v = v) :
    Slot.toItems (Slot.writeItems item [] items) = items := by
  induction items with
  | nil => rw [Slot.writeItems, Slot.toItems]
  | cons v r ih =>
    obtain ⟨hv, hr⟩ := List.forall_mem_cons.mp h
    rw [Slot.writeItems, Slot.toItems, ih hr]
    congr 1

theorem fits_arr {d : Nat} {item : Shape} {items : List Json} (h : ∀ v ∈ items, Fits d item v) :
    Fits (d + 1) (.list item) (.arr items) := by
  refine ⟨.arr fun v hv => (h v hv).plain, ?_, ?_⟩
  · rw [fault?.eq_def]
    exact itemsFault?_eq_none fun v hv => (h v hv).faultless
  · rw [settle, Slot.write, Slot.toJson]
    congr 1
    exact toItems_writeItems fun v hv => (h v hv).settled

/-! ## §3 Objects -/

/-- The member has a field's name, which is compared as it is written, and the field's shape. -/
structure MemberFits (d : Nat) (fields : List (Bytes × Shape)) (m : Bytes × Json) : Prop where
  key : Utf8.isValid m.1 = true
  folded : foldName m.1 = m.1
  value : ∃ shape, fields.lookup m.1 = some shape ∧ Fits d shape m.2

/-- A field that is looked up is also found by its name. -/
theorem find?_of_lookup {fields : List (Bytes × Shape)} {name : Bytes} {shape : Shape}
    (h : fields.lookup name = some shape) :
    fields.find? (fun f => f.1 == name) = some (name, shape) := by
  induction fields with
  | nil => cases h
  | cons f r ih =>
    obtain ⟨key, value⟩ := f
    by_cases hname : key = name
    · subst hname
      rw [List.lookup_cons_self, Option.some.injEq] at h
      rw [List.find?_cons_of_pos (by simp), ← h]
    · have hbeq : (name == key) = false := beq_false_of_ne (Ne.symm hname)
      rw [List.lookup_cons, hbeq] at h
      rw [List.find?_cons_of_neg (by simpa using hname)]
      exact ih h

theorem membersFault?_eq_none {d : Nat} {strict : Bool} {fields : List (Bytes × Shape)}
    {members : List (Bytes × Json)} (h : ∀ m ∈ members, MemberFits d fields m) :
    membersFault? strict fields members = none := by
  induction members with
  | nil => rw [membersFault?]
  | cons m r ih =>
    obtain ⟨hm, hr⟩ := List.forall_mem_cons.mp h
    obtain ⟨shape, hlookup, hfits⟩ := hm.value
    have hfind : fields.find? (fun f => f.1 == foldName m.1) = some (m.1, shape) := by
      rw [hm.folded]
      exact find?_of_lookup hlookup
    obtain ⟨k, v⟩ := m
    rw [membersFault?, hfind]
    simp only [hfits.faultless]
    exact ih hr

theorem set_of_not_mem {name : Bytes} {s : Slot} {old : List (Bytes × Slot)}
    (h : name ∉ old.map Prod.fst) : Slot.set name s old = old ++ [(name, s)] := by
  induction old with
  | nil => rfl
  | cons m r ih =>
    obtain ⟨hm, hr⟩ := List.ne_and_not_mem_of_not_mem_cons h
    obtain ⟨k, o⟩ := m
    rw [Slot.set, if_neg (by simpa using Ne.symm hm), ih hr, List.cons_append]

/-- Members with names of their own are written one behind the other. -/
theorem toMembers_writeMembers {d : Nat} {strict : Bool} {fields : List (Bytes × Shape)}
    {members : List (Bytes × Json)} {old : List (Bytes × Slot)}
    (h : ∀ m ∈ members, MemberFits d fields m)
    (hnodup : (old.map Prod.fst ++ members.map Prod.fst).Nodup) :
    Slot.toMembers (Slot.writeMembers (.record strict fields) old members)
      = Slot.toMembers old ++ members := by
  induction members generalizing old with
  | nil => rw [Slot.writeMembers, List.append_nil]
  | cons m r ih =>
    obtain ⟨hm, hr⟩ := List.forall_mem_cons.mp h
    obtain ⟨shape, hlookup, hfits⟩ := hm.value
    obtain ⟨k, v⟩ := m
    -- the key is new, so the member goes behind the ones written before
    have hnew : k ∉ old.map Prod.fst := by
      intro hk
      exact (List.nodup_append.mp hnodup).2.2 k hk k List.mem_cons_self rfl
    have hfield : Slot.field (.record strict fields) k = (k, shape) := by
      have hfolded : foldName k = k := hm.folded
      simp only [Slot.field, hfolded, hlookup, Option.getD_some]
    have hfind : old.find? (fun o => o.1 == k) = none := by
      refine List.find?_eq_none.mpr fun o ho hbeq => hnew ?_
      rw [← eq_of_beq hbeq]
      exact List.mem_map_of_mem ho
    rw [Slot.writeMembers, hfield]
    simp only [Slot.startsAnew, hfind, Option.map_none, Option.getD_none, Bool.false_eq_true,
      if_false]
    rw [set_of_not_mem hnew, ih hr]
    · have hsettled : (Slot.fresh.write shape v).toJson = v := hfits.settled
      simp only [Slot.toMembers_eq_map, List.map_append, List.map_cons, List.map_nil, hsettled,
        List.append_assoc, List.singleton_append]
    · simpa [List.append_assoc] using hnodup

theorem valuesFault?_eq_none {d : Nat} {item : Shape} {members : List (Bytes × Json)}
    (h : ∀ m ∈ members, Fits d item m.2) : valuesFault? item members = none := by
  induction members with
  | nil => rw [valuesFault?]
  | cons m r ih =>
    obtain ⟨hm, hr⟩ := List.forall_mem_cons.mp h
    rw [valuesFault?, hm.faultless]
    exact ih hr

/-- Values with keys of their own are written one behind the other. -/
theorem toMembers_writeValues {d : Nat} {item : Shape} {members : List (Bytes × Json)}
    {old : List (Bytes × Slot)} (h : ∀ m ∈ members, Fits d item m.2)
    (hnodup : (old.map Prod.fst ++ members.map Prod.fst).Nodup) :
    Slot.toMembers (Slot.writeMembers (.mapping item) old members)
      = Slot.toMembers old ++ members := by
  induction members generalizing old with
  | nil => rw [Slot.writeMembers, List.append_nil]
  | cons m r ih =>
    obtain ⟨hm, hr⟩ := List.forall_mem_cons.mp h
    obtain ⟨k, v⟩ := m
    have hnew : k ∉ old.map Prod.fst := by
      intro hk
      exact (List.nodup_append.mp hnodup).2.2 k hk k List.mem_cons_self rfl
    have hsettled : (Slot.fresh.write item v).toJson = v := hm.settled
    rw [Slot.writeMembers, Slot.field]
    simp only [Slot.startsAnew, if_true]
    rw [set_of_not_mem hnew, ih hr]
    · simp only [Slot.toMembers_eq_map, List.map_append, List.map_cons, List.map_nil, hsettled,
        List.append_assoc, List.singleton_append]
    · simpa [List.append_assoc] using hnodup

/-- Values with keys of their own. -/
theorem fits_mapping {d : Nat} {item : Shape} {members : List (Bytes × Json)}
    (hkeys : ∀ m ∈ members, Utf8.isValid m.1 = true) (h : ∀ m ∈ members, Fits d item m.2)
    (hnodup : (members.map Prod.fst).Nodup) : Fits (d + 1) (.mapping item) (.obj members) := by
  refine ⟨.obj hkeys fun m hm => (h m hm).plain, ?_, ?_⟩
  · rw [fault?.eq_def]
    exact valuesFault?_eq_none h
  · rw [settle, Slot.write, Slot.toJson]
    congr 1
    exact toMembers_writeValues h hnodup

/-- Members that fit, with their names among those of a list and in its order. -/
structure Fills (d : Nat) (fields : List (Bytes × Shape)) (names : List Bytes)
    (members : List (Bytes × Json)) : Prop where
  names : (members.map Prod.fst).Sublist names
  members : ∀ m ∈ members, MemberFits d fields m

theorem Fills.fits {d : Nat} {strict : Bool} {fields : List (Bytes × Shape)} {names : List Bytes}
    {members : List (Bytes × Json)} (h : Fills d fields names members) (hnodup : names.Nodup) :
    Fits (d + 1) (.record strict fields) (.obj members) := by
  refine ⟨.obj (fun m hm => (h.members m hm).key) fun m hm => ?_, ?_, ?_⟩
  · obtain ⟨shape, -, hfits⟩ := (h.members m hm).value
    exact hfits.plain
  · rw [fault?.eq_def]
    exact membersFault?_eq_none h.members
  · rw [settle, Slot.write, Slot.toJson]
    congr 1
    exact toMembers_writeMembers h.members (h.names.nodup hnodup)

/-! ## §4 Members that may be left out -/

section Members

variable {d : Nat} {fields : List (Bytes × Shape)} {names names' : List Bytes}
  {l l' : List (Bytes × Json)} {name : Bytes} {shape : Shape}

/-- Members may be left out. -/
theorem Fills.skip (names : List Bytes) : Fills d fields names [] :=
  ⟨List.nil_sublist names, nofun⟩

theorem Fills.nil : Fills d fields [] [] := .skip []

theorem Fills.append (h : Fills d fields names l) (h' : Fills d fields names' l') :
    Fills d fields (names ++ names') (l ++ l') := by
  refine ⟨?_, List.forall_mem_append.mpr ⟨h.members, h'.members⟩⟩
  rw [List.map_append]
  exact h.names.append h'.names

theorem Fills.cons {v : Json} (hkey : Utf8.isValid name = true) (hfolded : foldName name = name)
    (hlookup : fields.lookup name = some shape) (hv : Fits d shape v)
    (h : Fills d fields names l) : Fills d fields (name :: names) (member name v :: l) :=
  ⟨h.names.cons_cons name, List.forall_mem_cons.mpr ⟨⟨hkey, hfolded, shape, hlookup, hv⟩, h.members⟩⟩

theorem Fills.ite {b : Prop} [Decidable b] (h : Fills d fields names l) :
    Fills d fields names (if b then [] else l) := by
  split
  · exact .skip names
  · exact h

end Members

end Idl.Json
