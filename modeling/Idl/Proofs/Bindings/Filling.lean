import Idl.Bindings.Template
import Mathlib.Data.List.Forall2

/-!
# Filling in templates

What a template is filled in to is put together from what its nodes are filled in to.

* §1 results of computations, §2 nodes.
-/

namespace Idl

/-! ## §1 Results -/

theorem exists_of_isOk {ε α : Type} {r : Except ε α} (h : r.isOk = true) : ∃ a, r = .ok a := by
  cases r with
  | error e => cases h
  | ok a => exact ⟨a, rfl⟩

/-- A computation in two steps has a result only if both steps have one. -/
theorem exists_of_bind_eq_ok {ε α β : Type} {x : Except ε α} {f : α → Except ε β} {b : β}
    (h : x >>= f = .ok b) : ∃ a, x = .ok a ∧ f a = .ok b := by
  cases x with
  | error e => cases h
  | ok a => exact ⟨a, rfl, h⟩

theorem mapM_map_eq_ok {ε α β γ : Type} {f : β → Except ε γ} {g : α → β} {k : α → γ} {l : List α}
    (h : ∀ a ∈ l, f (g a) = .ok (k a)) : (l.map g).mapM f = .ok (l.map k) := by
  induction l with
  | nil => rfl
  | cons a r ih =>
    obtain ⟨ha, hr⟩ := List.forall_mem_cons.mp h
    rw [List.map_cons, List.mapM_cons, ha, ih hr]
    rfl

/-- A list of computations has results exactly if each of them has its own. -/
theorem mapM_eq_ok_iff {ε α β : Type} {f : α → Except ε β} {l : List α} {m : List β} :
    l.mapM f = .ok m ↔ List.Forall₂ (fun a b => f a = .ok b) l m := by
  induction l generalizing m with
  | nil =>
    refine ⟨fun h => ?_, fun h => ?_⟩
    · cases h
      exact .nil
    · cases h
      rfl
  | cons a r ih =>
    rw [List.mapM_cons]
    refine ⟨fun h => ?_, fun h => ?_⟩
    · obtain ⟨b, hb, h⟩ := exists_of_bind_eq_ok h
      obtain ⟨m', hm, h⟩ := exists_of_bind_eq_ok h
      cases h
      exact .cons hb (ih.mp hm)
    · obtain _ | ⟨hb, hr⟩ := h
      rw [hb, ih.mpr hr]
      rfl

/-! ## §2 Nodes -/

namespace Template

open Short

variable {call : Bytes → Data → Except Fault Bytes} {root here : Data}

theorem fill_nil (call : Bytes → Data → Except Fault Bytes) (root here : Data) :
    fill call root here [] = .ok [] := rfl

theorem fill_cons_eq (call : Bytes → Data → Except Fault Bytes) (root here : Data) (n : Node)
    (l : List Node) : fill call root here (n :: l)
      = fillNode call root here n >>= fun a => fill call root here l >>= fun b => .ok (a ++ b) := rfl

theorem fill_cons {n : Node} {l : List Node} {a b : Bytes}
    (h : fillNode call root here n = .ok a) (h' : fill call root here l = .ok b) :
    fill call root here (n :: l) = .ok (a ++ b) := by
  rw [fill_cons_eq, h, h']
  rfl

theorem fill_append {l l' : List Node} {a b : Bytes} (h : fill call root here l = .ok a)
    (h' : fill call root here l' = .ok b) : fill call root here (l ++ l') = .ok (a ++ b) := by
  induction l generalizing a with
  | nil =>
    rw [fill_nil] at h
    cases h
    exact h'
  | cons n r ih =>
    rw [fill_cons_eq] at h
    obtain ⟨x, hn, h⟩ := exists_of_bind_eq_ok h
    obtain ⟨y, hr, h⟩ := exists_of_bind_eq_ok h
    cases h
    rw [List.append_assoc]
    exact fill_cons hn (ih hr)

theorem follow_singleton (d : Data) (name : Bytes) : follow d [name] = d.field name := by
  rw [follow, List.foldlM_cons]
  simp

theorem fillNode_t (text : Bytes) : fillNode call root here (t text) = .ok text := rfl

theorem fillNode_f {name x : Bytes} (h : here.field name = .ok (.text x)) :
    fillNode call root here (f name) = .ok x := by
  change follow here [name] >>= Data.written = _
  rw [follow_singleton, h]
  rfl

theorem fillNode_q {name x : Bytes} (h : here.field name = .ok (.text x)) :
    fillNode call root here (q name) = .ok (quote x) := by
  change (follow here [name] >>= fun d => .ok [d]) >>= Function.quote.apply >>= Data.written = _
  rw [follow_singleton, h]
  change Except.ok (Bytes.join " " [quote x]) = _
  rw [Bytes.join, List.intercalate_singleton]

theorem fillNode_top {name x : Bytes} (h : root.field name = .ok (.text x)) :
    fillNode call root here (top name) = .ok x := by
  change follow root [name] >>= Data.written = _
  rw [follow_singleton, h]
  rfl

/-- A body that is repeated is filled in for each item. -/
theorem fillNode_each {α : Type} {name : Bytes} {items : List α} {data : α → Data}
    {body : List Node} {text : α → Bytes} (h : here.field name = .ok (.list (items.map data)))
    (hbody : ∀ a ∈ items, fill call root (data a) body = .ok (text a)) :
    fillNode call root here (each name body) = .ok (items.flatMap text) := by
  have hparts : (items.map data).mapM (fun item => fill call root item body)
      = .ok (items.map text) := mapM_map_eq_ok hbody
  change follow here [name] >>= _ = _
  rw [follow_singleton, h]
  cases items with
  | nil =>
    -- nothing is repeated, and what stands for that case is empty
    change fill call root here [] = _
    rfl
  | cons a r =>
    change (do return ((← ((a :: r).map data).mapM fun item => fill call root item body).flatten))
      = _
    rw [hparts, List.flatMap_def]
    rfl

end Template

end Idl
