import Idl.Proofs.Compile.Alike
import Idl.Proofs.Compile.Portable
import Idl.Proofs.Compile.Reports

/-!
# What the annotations of a schema say

Every annotation that a schema keeps stands in its file: it is one of the annotations there, or an
option. Its name, its keys and the names among its constants are therefore words of the file, and
whatever its constants are, it is written as a text of one line.

* §1 the annotations of a schema, §2 where they come from, §3 how they are written.
-/

namespace Idl

/-! ## §1 The annotations of a schema -/

/-- The constants of an annotation. -/
def Annot.constants (a : Annot) : List Value := a.value.toList ++ a.pairs.map (·.value)

/-- The annotations of a message and of each of its fields. -/
def Message.annotLists (m : Message) : List (List Annot) := m.annots :: m.fields.map (·.annots)

/-- The annotations of a service and of each of its methods. -/
def Service.annotLists (s : Service) : List (List Annot) := s.annots :: s.methods.map (·.annots)

/-- The annotations of a schema and of all its parts, one list for each. -/
def Schema.annotLists (s : Schema) : List (List Annot) :=
  s.annots :: (s.messages.flatMap Message.annotLists ++ s.services.flatMap Service.annotLists)

namespace Tree

/-! ## §2 Where they come from -/

/-- An annotation that is kept has the name and the arguments of one of the file, or it is an
option. -/
inductive File.Says (f : File) : Idl.Annot → Prop where
  | annot {n : Annot} {a : Idl.Annot} (node : f.Has n.node) (lower : n.lower = .ok a) : Says f a
  | option {o : Setting} (setting : o ∈ f.options) :
      Says f ⟨Idl.Annot.optionName, none, [⟨o.name.dotted, o.value.lower⟩]⟩

/-- An annotation that is kept says what one of those that were read says. -/
theorem exists_of_mem_meanings {target : Target} {nodes : List Annot} {a : Idl.Annot}
    (ha : a ∈ (meanings target nodes).annots) : ∃ n ∈ nodes, n.lower = .ok a := by
  obtain ⟨m, hm, hannot⟩ := List.mem_filterMap.mp ha
  obtain ⟨n, hn, hinterpret⟩ := List.mem_filterMap.mp hm
  cases hok : n.interpret target with
  | error e => simp [hok, Except.toOption] at hinterpret
  | ok m' =>
    simp only [hok, Except.toOption, Option.some.injEq] at hinterpret
    subst hinterpret
    obtain ⟨x, hx, hsays⟩ := Annot.interpret_eq_ok_iff.mp hok
    cases hsays with
    -- these two become no annotation
    | doc | source => cases hannot
    | codegen | default | other =>
      cases hannot
      exact ⟨n, hn, hx⟩

/-- A constant that is a name is written as a name. -/
theorem Value.exists_path_of_lower {x : Value} {name : Bytes} (h : x.lower = .ident name) :
    ∃ p : Path, x.constant = .path p ∧ name = p.dotted := by
  unfold lower at h
  cases hconstant : x.constant with
  | path p =>
    rw [hconstant] at h
    cases h
    exact ⟨p, rfl, rfl⟩
  -- an integer becomes a number, whatever its size
  | int l =>
    rw [hconstant] at h
    exact absurd h (ofInt_ne_ident _ _)
  | _ =>
    rw [hconstant] at h
    cases h

theorem Value.has_path {x : Value} {p : Path} (h : x.constant = .path p) : x.node.Has p.node :=
  .of_part (by simp [node, Node.parts, h, Constant.nodes])

namespace File.Says

variable {f : File}

theorem of_meanings {target : Target} {nodes : List Annot} (h : ∀ n ∈ nodes, f.Has n.node) :
    ∀ a ∈ (meanings target nodes).annots, f.Says a := by
  intro a ha
  obtain ⟨n, hn, hlower⟩ := exists_of_mem_meanings ha
  exact .annot (h n hn) hlower

/-- All annotations of the schema of a file. -/
theorem of_mem_annotLists {sourcePath : Bytes} {l : List Idl.Annot}
    (h : l ∈ (f.schema sourcePath).annotLists) : ∀ a ∈ l, f.Says a := by
  rcases List.mem_cons.mp h with rfl | h
  · -- the options of the file
    intro a ha
    obtain ⟨o, ho, rfl⟩ := List.mem_map.mp ha
    exact .option ho
  rcases List.mem_append.mp h with h | h
  · -- a message, or one of its fields
    obtain ⟨lowered, hlowered, hl⟩ := List.mem_flatMap.mp h
    obtain ⟨m, hm, rfl⟩ := List.mem_map.mp hlowered
    rcases List.mem_cons.mp hl with rfl | hl
    · exact of_meanings fun n hn => has_messageAnnot hm hn
    · obtain ⟨field, hfield, rfl⟩ := List.mem_map.mp hl
      obtain ⟨⟨position, x⟩, hx, rfl⟩ := List.mem_map.mp hfield
      have hmem : x ∈ m.fields := by
        rw [← Message.map_snd_numbered]
        exact List.mem_map_of_mem hx
      exact of_meanings fun n hn => (has_message hm).trans (Message.has_fieldAnnot hmem hn)
  · -- a service, or one of its methods
    obtain ⟨identified, hidentified, hl⟩ := List.mem_flatMap.mp h
    obtain ⟨lowered, hlowered, rfl⟩ := List.mem_map.mp hidentified
    obtain ⟨s, hs, rfl⟩ := List.mem_map.mp hlowered
    rcases List.mem_cons.mp hl with rfl | hl
    · exact of_meanings fun n hn => has_serviceAnnot hs hn
    · obtain ⟨method, hmethod, rfl⟩ := List.mem_map.mp hl
      obtain ⟨x, hx, rfl⟩ := List.mem_map.mp hmethod
      exact of_meanings fun n hn => (has_service hs).trans (Service.has_methodAnnot hx hn)

end File.Says

/-- The constants of an annotation are written in it, except for those of bare names. -/
theorem Annot.exists_value {n : Annot} {v : Idl.Value}
    (h : v ∈ n.positional ∨ v ∈ n.named.map (·.value)) :
    v = .bool true ∨ ∃ x : Value, n.node.Has x.node ∧ v = x.lower := by
  have harg {arg : Arg} (harg : arg ∈ n.args) : n.node.Has arg.node :=
    .of_part (List.mem_cons_of_mem _ (List.mem_map_of_mem harg))
  have hvalue {arg : Arg} {x : Value} (harg : n.node.Has arg.node)
      (hx : x.node ∈ arg.form.nodes) : n.node.Has x.node := harg.trans (.of_part hx)
  -- a value stands alone or behind a key, and a key alone stands for true
  rcases h with h | h
  · obtain ⟨form, hform, hv⟩ := List.mem_filterMap.mp h
    obtain ⟨arg, hmem, rfl⟩ := List.mem_map.mp hform
    cases hargForm : arg.form with
    | positional x =>
      rw [hargForm] at hv
      cases hv
      exact .inr ⟨x, hvalue (harg hmem) (by simp [hargForm, ArgForm.nodes]), rfl⟩
    | flag i =>
      rw [hargForm] at hv
      cases hv
    | pair i x =>
      rw [hargForm] at hv
      cases hv
  · obtain ⟨p, hp, rfl⟩ := List.mem_map.mp h
    obtain ⟨form, hform, hpair⟩ := List.mem_filterMap.mp hp
    obtain ⟨arg, hmem, rfl⟩ := List.mem_map.mp hform
    cases hargForm : arg.form with
    | positional x =>
      rw [hargForm] at hpair
      cases hpair
    | flag i =>
      rw [hargForm] at hpair
      cases hpair
      exact .inl rfl
    | pair i x =>
      rw [hargForm] at hpair
      cases hpair
      exact .inr ⟨x, hvalue (harg hmem) (by simp [hargForm, ArgForm.nodes]), rfl⟩

/-- What is said in a file consists of names, keys and constants of the file. -/
theorem File.Says.parts {f : File} {a : Idl.Annot} (h : f.Says a) :
    (a.name = Idl.Annot.optionName ∨ ∃ p : Path, f.Has p.node ∧ a.name = p.dotted)
      ∧ (∀ p ∈ a.pairs, ∃ k : Path, p.key = k.dotted ∧ ∀ i ∈ k.parts, f.Has i.node)
      ∧ ∀ v ∈ a.constants, v = .bool true ∨ ∃ x : Value, f.Has x.node ∧ v = x.lower := by
  cases h with
  | @annot n a node lower =>
    obtain ⟨-, rfl⟩ := Annot.lower_eq_ok_iff.mp lower
    refine ⟨.inr ⟨n.name, node.trans Annot.has_name, rfl⟩, fun p hp => ?_, fun v hv => ?_⟩
    · -- a key is a name of one part
      obtain ⟨i, hi, hkey⟩ := Annot.has_key (List.mem_map_of_mem hp)
      refine ⟨⟨i.loc, i, []⟩, ?_, fun j hj => ?_⟩
      · simp [Path.dotted, Path.parts, Bytes.join, hkey]
      · rw [List.mem_singleton.mp hj]
        exact node.trans hi
    · -- a value stands first or under a key
      have hmem : v ∈ n.positional ∨ v ∈ n.named.map (·.value) := by
        rcases List.mem_append.mp hv with hv | hv
        · exact .inl (List.mem_of_mem_head? (Option.mem_toList.mp hv))
        · exact .inr hv
      rcases Annot.exists_value hmem with rfl | ⟨x, hx, rfl⟩
      · exact .inl rfl
      · exact .inr ⟨x, node.trans hx, rfl⟩
  | @option o setting =>
    -- an option of the file has one value, under its own name
    have hvalue : o.node.Has o.value.node := .of_part (by simp [Setting.node, Node.parts])
    refine ⟨.inl rfl, fun p hp => ?_, fun v hv => ?_⟩
    · obtain rfl := List.mem_singleton.mp hp
      exact ⟨o.name, rfl, fun i hi => (has_settingName setting).trans (Path.has_ident hi)⟩
    · obtain rfl := List.mem_singleton.mp hv
      exact .inr ⟨o.value, (has_setting setting).trans hvalue, rfl⟩

end Tree

/-! ## §3 How they are written -/

open Bytes (Legible legible_append legible_join)

theorem Bytes.legible_ofInt (n : Int) : Legible (ofInt n) := by
  cases n with
  | ofNat n => exact legible_ofNat n
  | negSucc n => exact List.forall_mem_cons.mpr ⟨by decide, legible_ofNat (n + 1)⟩

/-- The text of a numeral is written in signs, digits, a point and an exponent. -/
theorem Numeral.Proper.legible_text {n : Numeral} (h : n.Proper) : Legible n.text := by
  have hdigits {ds : Bytes} (hds : ∀ b ∈ ds, Bytes.isDigit b = true) : Legible ds :=
    Bytes.legible_of_isWord fun b hb => by simp [Bytes.isWord, hds b hb]
  refine legible_append.mpr ⟨?_, legible_append.mpr ⟨hdigits h.whole, legible_append.mpr ⟨?_, ?_⟩⟩⟩
  · split
    · decide
    · decide
  · split
    · decide
    · exact List.forall_mem_cons.mpr ⟨by decide, hdigits h.fraction⟩
  · split
    · decide
    · refine List.forall_mem_cons.mpr ⟨by decide, List.forall_mem_cons.mpr ⟨?_, hdigits h.exponent⟩⟩
      split
      · decide
      · decide

/-- A finite number is written as a numeral. -/
theorem Binary64.exists_text_eq_render {x : Binary64} {negative narrow : Bool} {m : Nat} {q : Int}
    (h : x.classify = .finite negative m q narrow) :
    ∃ k : Numeral, k.Proper ∧ k.negative = negative ∧ k.text = x.render := by
  obtain ⟨-, hfinite, hrep⟩ := FloatFormat.classify_eq_finite x.bits_lt h
  obtain ⟨k, hk, hnegative, htext, -⟩ := FloatNotation.constant.exists_text_eq_render
    FloatFormat.double_moderate hrep hfinite negative
  exact ⟨k, hk, hnegative, by rw [htext, render, h]⟩

/-- A number is rendered legibly. -/
theorem Binary64.legible_render (x : Binary64) : Legible x.render := by
  cases h : x.classify with
  | nan =>
    rw [render, h]
    decide
  | infinite negative =>
    rw [render, h]
    cases negative
    · decide
    · decide
  | finite negative m q narrow =>
    obtain ⟨k, hk, -, htext⟩ := exists_text_eq_render h
    exact htext ▸ hk.legible_text

/-- A constant is rendered legibly when the name it may hold is legible. -/
theorem Value.legible_render {v : Value} (h : ∀ name, v = .ident name → name.Legible) :
    Legible v.render := by
  cases v with
  | int n => exact Bytes.legible_ofInt n
  | uint n => exact Bytes.legible_ofNat n
  | float x => exact x.legible_render
  | bool b =>
    cases b
    · decide
    · decide
  | text t => exact legible_quote t
  | ident name => exact h name rfl
  | unassigned kind =>
    have hinvalid : Legible ("<invalid>" : Bytes) := by decide
    exact hinvalid

namespace Tree.File.Says

variable {f : File}

/-- A constant of a file is written as a text of one line. -/
theorem legible_constant {v : Idl.Value} (hf : f.Legible)
    (h : v = .bool true ∨ ∃ x : Value, f.Has x.node ∧ v = x.lower) : Bytes.Legible v.render := by
  refine Idl.Value.legible_render fun name hname => ?_
  rcases h with rfl | ⟨x, hx, rfl⟩
  · cases hname
  · obtain ⟨p, hp, rfl⟩ := Value.exists_path_of_lower hname
    exact hf.dotted (hx.trans (Value.has_path hp))

/-- What is said in a file is written as a text of one line. -/
theorem legible_render {a : Idl.Annot} (h : f.Says a) (hf : f.Legible) : Bytes.Legible a.render := by
  obtain ⟨hname, hkeys, hconstants⟩ := h.parts
  have hname : Bytes.Legible a.name := by
    rcases hname with hname | ⟨p, hp, hname⟩
    · rw [hname]
      decide
    · exact hname ▸ hf.dotted hp
  -- the constants are those of the file
  have hvalue (v : Idl.Value) (hv : v ∈ a.constants) : Bytes.Legible v.render :=
    legible_constant hf (hconstants v hv)
  unfold Idl.Annot.render
  refine legible_append.mpr ⟨legible_append.mpr ⟨by decide, hname⟩, ?_⟩
  split
  · next v hv =>
    -- the value stands alone
    have hmem : v ∈ a.constants := List.mem_append_left _ (by simp [hv])
    exact legible_append.mpr ⟨legible_append.mpr ⟨by decide, hvalue v hmem⟩, by decide⟩
  · split
    · decide
    · refine legible_append.mpr ⟨legible_append.mpr ⟨by decide, ?_⟩, by decide⟩
      refine legible_join (by decide) fun t ht => ?_
      obtain ⟨p, hp, rfl⟩ := List.mem_map.mp ht
      obtain ⟨k, hk, hparts⟩ := hkeys p hp
      -- a key is written with the names of the file
      have hkey : Bytes.Legible p.key := by
        rw [hk]
        refine legible_join (by decide) fun t ht => ?_
        obtain ⟨i, hi, rfl⟩ := List.mem_map.mp ht
        exact hf.name i (hparts i hi)
      have hmem : p.value ∈ a.constants := List.mem_append_right _ (List.mem_map_of_mem hp)
      exact legible_append.mpr ⟨legible_append.mpr ⟨hkey, by decide⟩, hvalue p.value hmem⟩

end Tree.File.Says

end Idl
