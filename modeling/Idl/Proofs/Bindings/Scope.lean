import Idl.Bindings.Basic
import Mathlib.Data.List.Nodup
import Mathlib.Data.List.Pairwise

/-!
# When names can be given out

A scope refuses a name that belongs to another entity. So a computation that gives out names comes
to an end exactly if its names, together with those that have been given out before, belong to one
entity each. What it gives out can be read off its parts.

* §1 consistent scopes, §2 computations and what they give out,
* §3 entities with their names.
-/

namespace Idl.Bindings

/-! ## §1 Consistent scopes -/

namespace Scope

variable {s t : Scope} {entity name : Bytes}

/-- No name belongs to two entities. -/
def Consistent (s : Scope) : Prop := ∀ p ∈ s, ∀ q ∈ s, p.1 = q.1 → p.2 = q.2

theorem consistent_nil : Consistent [] := nofun

theorem Consistent.mono (h : t.Consistent) (hst : ∀ p ∈ s, p ∈ t) : s.Consistent :=
  fun p hp q hq => h p (hst p hp) q (hst q hq)

theorem consistent_congr (h : ∀ p, p ∈ s ↔ p ∈ t) : s.Consistent ↔ t.Consistent :=
  ⟨fun hs => hs.mono fun p hp => (h p).mpr hp, fun ht => ht.mono fun p hp => (h p).mp hp⟩

theorem mem_of_owner? {owner : Bytes} (h : s.owner? name = some owner) : (name, owner) ∈ s := by
  obtain ⟨⟨n, e⟩, hfind, rfl⟩ := Option.map_eq_some_iff.mp h
  have hname : n = name := beq_iff_eq.mp (List.find?_some hfind :)
  subst hname
  exact List.mem_of_find?_eq_some hfind

theorem not_mem_of_owner? (h : s.owner? name = none) (owner : Bytes) : (name, owner) ∉ s := by
  intro hmem
  have hnone := List.find?_eq_none.mp (Option.map_eq_none_iff.mp h) _ hmem
  simp at hnone

/-- A name that may be given out is. -/
theorem claim_ok (target : Bytes) (h : Consistent ((name, entity) :: s)) :
    ∃ s', s.claim target entity name = .ok s' ∧ ∀ p, p ∈ s' ↔ p ∈ (name, entity) :: s := by
  rw [claim]
  split
  · exact ⟨_, rfl, fun p => Iff.rfl⟩
  · next owner howner =>
    have hmem := mem_of_owner? howner
    -- a name that is taken belongs to this very entity
    have heq : owner = entity :=
      h _ (List.mem_cons_of_mem _ hmem) _ (List.mem_cons_self ..) rfl
    subst heq
    rw [if_pos (beq_self_eq_true owner)]
    refine ⟨s, rfl, fun p => ⟨List.mem_cons_of_mem _, fun hp => ?_⟩⟩
    rcases List.mem_cons.mp hp with rfl | hp
    · exact hmem
    · exact hp

/-- A name that belongs to another entity is refused. -/
theorem claim_error (target : Bytes) (hs : s.Consistent) (h : ¬Consistent ((name, entity) :: s)) :
    ∃ earlier, s.claim target entity name = .error ⟨target, entity, .collision name earlier⟩ := by
  cases howner : s.owner? name with
  | none =>
    refine absurd (fun p hp q hq heq => ?_) h
    -- a name that nobody has would leave the scope consistent
    have hfresh := not_mem_of_owner? howner
    rcases List.mem_cons.mp hp with rfl | hp <;> rcases List.mem_cons.mp hq with rfl | hq
    · rfl
    · have hname : name = q.1 := heq
      exact absurd (hname ▸ hq) (hfresh q.2)
    · have hname : p.1 = name := heq
      exact absurd (hname ▸ hp) (hfresh p.2)
    · exact hs p hp q hq heq
  | some earlier =>
    -- so would a name that is its own
    have hne : earlier ≠ entity := by
      rintro rfl
      refine h (hs.mono fun p hp => ?_)
      rcases List.mem_cons.mp hp with rfl | hp
      · exact mem_of_owner? howner
      · exact hp
    refine ⟨earlier, ?_⟩
    rw [claim, howner]
    exact if_neg (by simpa using hne)

end Scope

open Scope (Consistent)

/-! ## §2 What is given out -/

/-- The error says that two entities have one name. -/
def IsCollision (e : BindingError) : Prop := e.cause.code = 5003

/-- The computation gives out names and yields a result; it comes to an end exactly if the names can
be given out and a further condition holds, and else two entities have one name. -/
structure Gives {α : Type} (x : Claiming α) (given : Scope) (inner : Prop) (a : α) : Prop where
  ok : ∀ s, Consistent (given ++ s) → inner →
    ∃ s', x s = .ok (a, s') ∧ ∀ p, p ∈ s' ↔ p ∈ given ++ s
  error : ∀ s, s.Consistent → ¬(Consistent (given ++ s) ∧ inner) →
    ∃ e, x s = .error e ∧ IsCollision e

namespace Gives

variable {α β : Type} {x : Claiming α} {given given' : Scope} {inner inner' : Prop} {a : α} {b : β}

theorem pure (a : α) : Gives (pure a) [] True a where
  ok _ _ _ := ⟨_, rfl, fun _ => Iff.rfl⟩
  error _ hs h := absurd ⟨hs, trivial⟩ h

theorem claim (target entity name : Bytes) :
    Gives (Bindings.claim target entity name) [(name, entity)] True () where
  ok s hs _ := by
    obtain ⟨s', hclaim, hmem⟩ := Scope.claim_ok (s := s) target hs
    refine ⟨s', ?_, hmem⟩
    rw [Bindings.claim, hclaim]
    rfl
  error s hs h := by
    obtain ⟨earlier, hclaim⟩ :=
      Scope.claim_error target hs fun hall => h ⟨hall, trivial⟩
    refine ⟨⟨target, entity, .collision name earlier⟩, ?_, rfl⟩
    rw [Bindings.claim, hclaim]
    rfl

/-- What is claimed by two steps, the inner conditions of both included. -/
theorem bind {k : α → Claiming β} (hx : Gives x given inner a) (hk : Gives (k a) given' inner' b) :
    Gives (x >>= k) (given ++ given') (inner ∧ inner') b where
  ok s hs hinner := by
    have hfirst : Consistent (given ++ s) := hs.mono fun p => by simp; tauto
    obtain ⟨s₁, hrun, hmem⟩ := hx.ok s hfirst hinner.1
    -- the second step meets the names of the first
    have hsecond : Consistent (given' ++ s₁) := hs.mono fun p => by simp [hmem]; tauto
    obtain ⟨s₂, hrun', hmem'⟩ := hk.ok s₁ hsecond hinner.2
    refine ⟨s₂, ?_, fun p => by rw [hmem']; simp [hmem]; tauto⟩
    change StateT.bind x k s = _
    rw [StateT.bind, hrun]
    exact hrun'
  error s hs h := by
    -- the first step fails, or the second one does in the scope it finds
    by_cases hfirst : Consistent (given ++ s) ∧ inner
    · obtain ⟨s₁, hrun, hmem⟩ := hx.ok s hfirst.1 hfirst.2
      have hs₁ : s₁.Consistent := (Scope.consistent_congr hmem).mpr hfirst.1
      obtain ⟨e, hrun', he⟩ := hk.error s₁ hs₁ fun hsecond => h
        ⟨hsecond.1.mono fun p => by simp [hmem]; tauto, hfirst.2, hsecond.2⟩
      refine ⟨e, ?_, he⟩
      change StateT.bind x k s = _
      rw [StateT.bind, hrun]
      exact hrun'
    · obtain ⟨e, hrun, he⟩ := hx.error s hs hfirst
      refine ⟨e, ?_, he⟩
      change StateT.bind x k s = _
      rw [StateT.bind, hrun]
      rfl

/-- Names and conditions can be put in other words. -/
theorem conseq (hx : Gives x given inner a) (hgiven : ∀ p, p ∈ given ↔ p ∈ given')
    (hinner : inner ↔ inner') : Gives x given' inner' a := by
  have hmem (s : Scope) (p : Bytes × Bytes) : p ∈ given ++ s ↔ p ∈ given' ++ s := by
    rw [List.mem_append, List.mem_append, hgiven]
  constructor
  · intro s hs h
    obtain ⟨s', hrun, hs'⟩ := hx.ok s ((Scope.consistent_congr (hmem s)).mpr hs) (hinner.mpr h)
    exact ⟨s', hrun, fun p => (hs' p).trans (hmem s p)⟩
  · intro s hs h
    exact hx.error s hs fun hall =>
      h ⟨(Scope.consistent_congr (hmem s)).mp hall.1, hinner.mp hall.2⟩

/-- A step that gives out no names and succeeds can be passed over. -/
theorem lift_bind {y : Except BindingError α} {k : α → Claiming β} (hy : y = .ok a)
    (hk : Gives (k a) given inner b) : Gives (liftM y >>= k) given inner b := by
  subst hy
  exact hk

theorem mapM {ι : Type} {f : ι → Claiming α} {names : ι → Scope} {cond : ι → Prop} {g : ι → α}
    {l : List ι} (h : ∀ i ∈ l, Gives (f i) (names i) (cond i) (g i)) :
    Gives (l.mapM f) (l.flatMap names) (∀ i ∈ l, cond i) (l.map g) := by
  induction l with
  | nil =>
    rw [List.mapM_nil]
    exact (Gives.pure []).conseq (fun _ => Iff.rfl) (by simp)
  | cons i r ih =>
    obtain ⟨hi, hr⟩ := List.forall_mem_cons.mp h
    rw [List.mapM_cons]
    exact (hi.bind ((ih hr).bind (.pure (g i :: r.map g)))).conseq (by simp) (by simp)

/-- One name for each part. -/
theorem mapM_singleton {ι : Type} {f : ι → Claiming α} {name : ι → Bytes × Bytes} {g : ι → α}
    {l : List ι} (h : ∀ i ∈ l, Gives (f i) [name i] True (g i)) :
    Gives (l.mapM f) (l.map name) True (l.map g) :=
  (mapM h).conseq (by simp [eq_comm]) (by simp)

theorem forM {f : Bytes → Claiming Unit} {entity : Bytes} {l : List Bytes}
    (h : ∀ name ∈ l, Gives (f name) [(name, entity)] True ()) :
    Gives (l.forM f) (l.map fun name => (name, entity)) True () := by
  induction l with
  | nil => exact .pure ()
  | cons i r ih =>
    obtain ⟨hi, hr⟩ := List.forall_mem_cons.mp h
    exact (hi.bind (ih hr)).conseq (by simp) (by simp)

/-- A name of another scope, which is carried along. -/
theorem lift_claim_bind {m : Scope} {target entity name : Bytes} {k : Scope → Claiming β}
    (hm : m.Consistent)
    (hk : ∀ m', m'.Consistent → (∀ p, p ∈ m' ↔ p ∈ (name, entity) :: m) →
      Gives (k m') given inner b) :
    Gives (liftM (m.claim target entity name) >>= k) given
      (Consistent ((name, entity) :: m) ∧ inner) b := by
  by_cases h : Consistent ((name, entity) :: m)
  · obtain ⟨m', hclaim, hmem⟩ := Scope.claim_ok target h
    have hm' : m'.Consistent := (Scope.consistent_congr hmem).mpr h
    exact (lift_bind hclaim (hk m' hm' hmem)).conseq (fun _ => Iff.rfl) (by simp [h])
  · obtain ⟨earlier, hclaim⟩ := Scope.claim_error target hm h
    rw [hclaim]
    exact ⟨fun _ _ hinner => absurd hinner.1 h, fun _ _ _ => ⟨_, rfl, rfl⟩⟩

/-- A scope of its own: whether the names can be given out decides about the result. -/
theorem inNewScope {s : Scope} (hs : s.Consistent) (hx : Gives x given inner a) :
    (Consistent (given ++ s) ∧ inner → inNewScope s x = .ok a)
      ∧ (¬(Consistent (given ++ s) ∧ inner) → ∃ e, inNewScope s x = .error e ∧ IsCollision e) := by
  constructor
  · -- the names are given up again at the end, the result is kept
    intro h
    obtain ⟨s', hrun, -⟩ := hx.ok s h.1 h.2
    change (·.1) <$> x s = _
    rw [hrun]
    rfl
  · intro h
    obtain ⟨e, hrun, he⟩ := hx.error s hs h
    refine ⟨e, ?_, he⟩
    change (·.1) <$> x s = _
    rw [hrun]
    rfl

/-- Nothing is given out in the scope around a scope of its own. -/
theorem inNewScope_bind {s : Scope} {k : α → Claiming β} (hs : s.Consistent)
    (hx : Gives x given inner a) (hk : Gives (k a) given' inner' b) :
    Gives (liftM (Bindings.inNewScope s x) >>= k) given'
      ((Consistent (given ++ s) ∧ inner) ∧ inner') b := by
  obtain ⟨hok, herror⟩ := hx.inNewScope hs
  by_cases h : Consistent (given ++ s) ∧ inner
  · exact (lift_bind (hok h) hk).conseq (fun _ => Iff.rfl) (by simp [h])
  · obtain ⟨e, hrun, he⟩ := herror h
    rw [hrun]
    exact ⟨fun _ _ hinner => absurd hinner.1 h, fun _ _ _ => ⟨e, rfl, he⟩⟩

end Gives

/-! ## §3 Entities with their names -/

/-- Entities with one name each have a consistent scope exactly if their names differ. -/
theorem consistent_iff_nodup {s : Scope} (h : (s.map (·.2)).Nodup) :
    s.Consistent ↔ (s.map (·.1)).Nodup := by
  constructor
  · intro hall
    refine List.pairwise_map.mpr ((List.pairwise_map.mp h).imp_of_mem fun hp hq hne => ?_)
    exact fun heq => hne (hall _ hp _ hq heq)
  · intro hnodup p hp q hq heq
    exact congrArg (·.2) (List.inj_on_of_nodup_map hnodup hp hq heq)

theorem nodup_members {ι : Type} {l : List ι} {name : ι → Bytes} (h : (l.map name).Nodup)
    (owner : Bytes) : (l.map fun i => owner ++ "." ++ name i).Nodup := by
  have heq : (l.map fun i => owner ++ "." ++ name i) = (l.map name).map (owner ++ "." ++ ·) := by
    rw [List.map_map]
    rfl
  rw [heq]
  exact h.map fun _ _ => List.append_cancel_left

/-- The members of an entity, which have different names in the schema. -/
theorem consistent_members_iff {ι : Type} {l : List ι} {name given : ι → Bytes}
    (h : (l.map name).Nodup) (owner : Bytes) :
    Consistent (l.map fun i => (given i, owner ++ "." ++ name i)) ↔ (l.map given).Nodup := by
  rw [consistent_iff_nodup, List.map_map]
  · rfl
  · rw [List.map_map]
    exact nodup_members h owner

/-- No two entities of a scope, given by their names, share one. -/
def Apart (scope : List (List Bytes)) : Prop := scope.Pairwise List.Disjoint

/-- What is given out to entities, each with its names. -/
def entriesOf (items : List (Bytes × List Bytes)) : Scope :=
  items.flatMap fun x => x.2.map fun name => (name, x.1)

/-- Entities that can be told from each other have a consistent scope exactly if they share no
name. -/
theorem consistent_entriesOf_iff {items : List (Bytes × List Bytes)}
    (h : (items.map (·.1)).Nodup) : Consistent (entriesOf items) ↔ Apart (items.map (·.2)) := by
  have hmem {x : Bytes × List Bytes} {name : Bytes} (hx : x ∈ items) (hname : name ∈ x.2) :
      (name, x.1) ∈ entriesOf items :=
    List.mem_flatMap.mpr ⟨x, hx, List.mem_map_of_mem hname⟩
  rw [Apart, List.pairwise_map]
  constructor
  · intro hall
    refine (List.pairwise_map.mp h).imp_of_mem fun hx hy hne => ?_
    exact fun name hxname hyname => hne (hall _ (hmem hx hxname) _ (hmem hy hyname) rfl)
  · intro hapart p hp q hq heq
    obtain ⟨x, hx, hxp⟩ := List.mem_flatMap.mp hp
    obtain ⟨y, hy, hyq⟩ := List.mem_flatMap.mp hq
    obtain ⟨n, hn, rfl⟩ := List.mem_map.mp hxp
    obtain ⟨m, hm, rfl⟩ := List.mem_map.mp hyq
    have hnm : n = m := heq
    subst hnm
    -- two entities with a name in common would not be apart
    by_contra hne
    have hxy : x ≠ y := fun hxy => hne (congrArg (·.1) hxy)
    have : Std.Symm fun x y : Bytes × List Bytes => x.2.Disjoint y.2 :=
      ⟨fun _ _ => List.disjoint_symm⟩
    exact hapart.forall hx hy hxy hn hm

section

variable {ι κ : Type} {l : List ι} {r : List κ}

/-- Two kinds of entities in one scope. -/
theorem consistent_entriesOf_append_iff {entity : ι → Bytes} {entity' : κ → Bytes}
    {names : ι → List Bytes} {names' : κ → List Bytes}
    (h : (l.map entity ++ r.map entity').Nodup) :
    Consistent (entriesOf (l.map (fun x => (entity x, names x))
        ++ r.map fun y => (entity' y, names' y)))
      ↔ Apart (l.map names ++ r.map names') := by
  rw [consistent_entriesOf_iff]
  · simp only [List.map_append, List.map_map, Function.comp_def]
  · simpa only [List.map_append, List.map_map, Function.comp_def] using h

/-- Entities with one name each, and others with several of them, use no name twice if no two of
them share one. -/
theorem nodup_of_apart {name : ι → Bytes} {names : κ → List Bytes}
    (hall : ∀ y ∈ r, (names y).Nodup) (h : Apart (l.map (fun x => [name x]) ++ r.map names)) :
    (l.map name ++ r.flatMap names).Nodup := by
  have heq : l.map name ++ r.flatMap names
      = (l.map (fun x => [name x]) ++ r.map names).flatten := by
    rw [List.flatten_append, ← List.flatMap_def, ← List.flatMap_def, List.map_eq_flatMap]
  rw [heq]
  refine List.nodup_flatten.mpr ⟨fun x hx => ?_, h⟩
  rcases List.mem_append.mp hx with hx | hx
  · obtain ⟨m, -, rfl⟩ := List.mem_map.mp hx
    exact List.nodup_singleton _
  · obtain ⟨y, hy, rfl⟩ := List.mem_map.mp hx
    exact hall y hy

end

end Idl.Bindings
