import Idl.Compile.Annot
import Mathlib.Data.List.Basic
import Mathlib.Data.List.Nodup
import Mathlib.Tactic.MkIffOfInductiveProp

/-!
# Misused annotations

The rules for annotations, stated without a look at how they are checked: which arguments go
together, what the four names with a meaning ask for, and which of several faults is the one that
is reported. An annotation is refused exactly if it breaks a rule, and for the reason given here; the
others say what their name has them say.

* §1 first elements,
* §2 arguments, §3 places and sides,
* §4 the rules, §5 an annotation is refused exactly if it breaks one,
* §6 what the others say.
-/

namespace Idl

/-! ## §1 First elements -/

/-- An element of a list is the first one with a property. -/
def FirstOf {α : Type} (p : α → Prop) (l : List α) (a : α) : Prop :=
  ∃ before after, l = before ++ a :: after ∧ p a ∧ ∀ b ∈ before, ¬ p b

section FirstOf

variable {α β ε σ : Type}

/-- Looking for an element finds the first one. -/
theorem find?_eq_some_iff_firstOf {q : α → Bool} {p : α → Prop} (h : ∀ a, q a = true ↔ p a)
    {l : List α} {a : α} : l.find? q = some a ↔ FirstOf p l a := by
  rw [List.find?_eq_some_iff_append]
  constructor
  · rintro ⟨ha, before, after, hl, hbefore⟩
    refine ⟨before, after, hl, (h a).mp ha, fun b hb hp => ?_⟩
    simpa [(h b).mpr hp] using hbefore b hb
  · rintro ⟨before, after, hl, ha, hbefore⟩
    refine ⟨(h a).mpr ha, before, after, hl, fun b hb => ?_⟩
    have hnot := fun hq => hbefore b hb ((h b).mp hq)
    simpa using hnot

theorem FirstOf.mem {p : α → Prop} {l : List α} {a : α} (h : FirstOf p l a) : a ∈ l ∧ p a := by
  obtain ⟨before, after, rfl, ha, -⟩ := h
  exact ⟨by simp, ha⟩

theorem not_firstOf_nil {p : α → Prop} {a : α} : ¬ FirstOf p [] a := by
  rintro ⟨before, after, hl, -, -⟩
  simp at hl

/-- The first element with a property is at the front, or behind a front without it. -/
theorem firstOf_cons {p : α → Prop} {a b : α} {l : List α} :
    FirstOf p (b :: l) a ↔ (b = a ∧ p a) ∨ (¬ p b ∧ FirstOf p l a) := by
  constructor
  · rintro ⟨before, after, hl, ha, hbefore⟩
    -- nothing stands before the first one, or the head of the list does
    cases before with
    | nil =>
      obtain ⟨rfl, rfl⟩ := List.cons.inj hl
      exact .inl ⟨rfl, ha⟩
    | cons c before =>
      obtain ⟨rfl, rfl⟩ := List.cons.inj hl
      obtain ⟨hb, hbefore⟩ := List.forall_mem_cons.mp hbefore
      exact .inr ⟨hb, before, after, rfl, ha, hbefore⟩
  · rintro (⟨rfl, ha⟩ | ⟨hb, before, after, rfl, ha, hbefore⟩)
    · exact ⟨[], l, rfl, ha, nofun⟩
    · exact ⟨b :: before, after, rfl, ha, List.forall_mem_cons.mpr ⟨hb, hbefore⟩⟩

/-- The fault of the first element that has one. -/
def FirstFault (fault : α → ε → Prop) (l : List α) (e : ε) : Prop :=
  ∃ a, FirstOf (fun b => ∃ e, fault b e) l a ∧ fault a e

/-- A fold that stops at faults gives the first one, if what is at fault does not depend on what
has been gathered. -/
theorem foldlM_eq_error_iff {fault : α → ε → Prop} {step : σ → α → Except ε σ}
    (hstep : ∀ s a e, step s a = .error e ↔ fault a e) (l : List α) (s : σ) (e : ε) :
    l.foldlM step s = .error e ↔ FirstFault fault l e := by
  induction l generalizing s with
  | nil =>
    refine iff_of_false nofun ?_
    rintro ⟨a, ha, -⟩
    exact not_firstOf_nil ha
  | cons a l ih =>
    rw [List.foldlM_cons]
    cases hs : step s a with
    | error e' =>
      have he' : fault a e' := (hstep s a e').mp hs
      constructor
      · rintro ⟨⟩
        exact ⟨a, firstOf_cons.mpr (.inl ⟨rfl, _, he'⟩), he'⟩
      · rintro ⟨b, hb, hfault⟩
        rcases firstOf_cons.mp hb with ⟨rfl, -⟩ | ⟨hnot, -⟩
        · rw [← hs, (hstep s a e).mpr hfault]
          rfl
        · exact absurd ⟨e', he'⟩ hnot
    | ok s' =>
      -- nothing is wrong with the first element, so that the fault is further on
      have hnot : ¬ ∃ e, fault a e := by
        rintro ⟨e', he'⟩
        rw [(hstep s a e').mpr he'] at hs
        cases hs
      refine (ih s').trans ?_
      constructor
      · rintro ⟨b, hb, hfault⟩
        exact ⟨b, firstOf_cons.mpr (.inr ⟨hnot, hb⟩), hfault⟩
      · rintro ⟨b, hb, hfault⟩
        rcases firstOf_cons.mp hb with ⟨rfl, h⟩ | ⟨-, hb⟩
        · exact absurd h hnot
        · exact ⟨b, hb, hfault⟩

end FirstOf

/-! ## §2 Arguments -/

namespace Tree.Annot

/-- The arguments with a name, as named values. -/
def named (n : Annot) : List Pair := (n.args.map (·.form)).filterMap (·.pair?)

/-- The values of the arguments without a name. -/
def positional (n : Annot) : List Idl.Value := (n.args.map (·.form)).filterMap (·.positional?)

/-- Arguments that go together: at most one value without a name, or values with different names. -/
structure Coherent (n : Annot) : Prop where
  keys : (n.named.map (·.key)).Nodup
  apart : n.positional = [] ∨ n.named = []
  single : n.positional.length ≤ 1

/-- Why arguments do not go together. A repeated name counts first, wherever it stands. -/
inductive Clash (n : Annot) : ArgFault → Prop where
  | duplicateKey {before after : List Bytes} {key : Bytes}
      (split : n.named.map (·.key) = before ++ key :: after) (fresh : before.Nodup)
      (again : key ∈ before) : Clash n (.duplicateKey key)
  | mixed (keys : (n.named.map (·.key)).Nodup) (positional : n.positional ≠ [])
      (named : n.named ≠ []) : Clash n .mixed
  | manyPositional (named : n.named = []) (many : 1 < n.positional.length) :
      Clash n .manyPositional

end Tree.Annot

/-- The search for a repeated name finds the first one that has been seen before. -/
theorem firstRepeat?_go_eq_some_iff {seen l : List Bytes} (hseen : seen.Nodup) {key : Bytes} :
    firstRepeat?.go seen l = some key
      ↔ ∃ before after, l = before ++ key :: after ∧ (before ++ seen).Nodup
        ∧ key ∈ before ++ seen := by
  induction l generalizing seen with
  | nil => simp [firstRepeat?.go]
  | cons k l ih =>
    rw [firstRepeat?.go]
    -- a key is one of those seen, or joins them
    by_cases hk : k ∈ seen
    · rw [if_pos (by simpa using hk)]
      constructor
      · rintro ⟨⟩
        exact ⟨[], l, rfl, hseen, hk⟩
      · rintro ⟨before, after, hl, hnodup, -⟩
        cases before with
        | nil => rw [(List.cons.inj hl).1]
        | cons b before =>
          obtain ⟨rfl, -⟩ := List.cons.inj hl
          have := (List.nodup_cons.mp hnodup).1
          exact absurd (List.mem_append_right _ hk) this
    · rw [if_neg (by simpa using hk), ih (List.nodup_cons.mpr ⟨hk, hseen⟩)]
      have hmove (before : List Bytes) : (before ++ k :: seen).Perm (k :: before ++ seen) :=
        List.perm_middle
      constructor
      · rintro ⟨before, after, rfl, hnodup, hmem⟩
        exact ⟨k :: before, after, rfl, (hmove before).nodup_iff.mp hnodup,
          (hmove before).mem_iff.mp hmem⟩
      · rintro ⟨before, after, hl, hnodup, hmem⟩
        cases before with
        | nil =>
          rw [(List.cons.inj hl).1] at hk
          exact absurd hmem hk
        | cons b before =>
          obtain ⟨rfl, rfl⟩ := List.cons.inj hl
          exact ⟨before, after, rfl, (hmove before).nodup_iff.mpr hnodup,
            (hmove before).mem_iff.mpr hmem⟩

theorem firstRepeat?_eq_some_iff {l : List Bytes} {key : Bytes} :
    firstRepeat? l = some key
      ↔ ∃ before after, l = before ++ key :: after ∧ before.Nodup ∧ key ∈ before := by
  rw [firstRepeat?, firstRepeat?_go_eq_some_iff List.nodup_nil]
  simp

/-- Nothing is repeated exactly if all are different. -/
theorem firstRepeat?_eq_none_iff {l : List Bytes} : firstRepeat? l = none ↔ l.Nodup := by
  -- on any set of keys that were seen before
  suffices h : ∀ seen : List Bytes, firstRepeat?.go seen l = none
      ↔ l.Nodup ∧ ∀ k ∈ l, k ∉ seen by
    rw [firstRepeat?, h]
    simp
  induction l with
  | nil => simp [firstRepeat?.go]
  | cons k l ih =>
    intro seen
    rw [firstRepeat?.go]
    by_cases hk : k ∈ seen
    · simp [hk]
    · simp only [List.contains_eq_mem, hk, decide_false, Bool.false_eq_true, if_false, ih]
      grind

namespace Tree.Annot

variable {n : Annot} {e : ArgFault} {a : Idl.Annot}

/-- Reading the arguments, said in terms of those with and without a name. -/
theorem lower_eq (n : Annot) : n.lower = match firstRepeat? (n.named.map (·.key)) with
    | some key => .error (.duplicateKey key)
    | none =>
      if !n.positional.isEmpty && !n.named.isEmpty then .error .mixed
      else if n.positional.length > 1 then .error .manyPositional
      else .ok ⟨n.name.dotted, n.positional.head?, n.named⟩ := rfl

/-- Arguments are refused exactly if they do not go together. -/
theorem lower_eq_error_iff : n.lower = .error e ↔ n.Clash e := by
  rw [lower_eq]
  -- a repeated key comes before all other clashes
  cases hrepeat : firstRepeat? (n.named.map (·.key)) with
  | some key =>
    have hnot : ¬ (n.named.map (·.key)).Nodup := by
      rw [← firstRepeat?_eq_none_iff, hrepeat]
      nofun
    constructor
    · rintro ⟨⟩
      obtain ⟨before, after, hsplit, hfresh, hagain⟩ := firstRepeat?_eq_some_iff.mp hrepeat
      exact .duplicateKey hsplit hfresh hagain
    · rintro (⟨hsplit, hfresh, hagain⟩ | ⟨hkeys, -, -⟩ | ⟨hnamed, -⟩)
      · have := firstRepeat?_eq_some_iff.mpr ⟨_, _, hsplit, hfresh, hagain⟩
        rw [hrepeat] at this
        cases this
        rfl
      · exact absurd hkeys hnot
      · exact absurd (by simp [hnamed]) hnot
  | none =>
    have hkeys := firstRepeat?_eq_none_iff.mp hrepeat
    dsimp only
    constructor
    · intro h
      split at h
      · next hmixed =>
        cases h
        simp only [Bool.and_eq_true, Bool.not_eq_true', List.isEmpty_eq_false_iff] at hmixed
        exact .mixed hkeys hmixed.1 hmixed.2
      split at h
      · next hmixed hmany =>
        cases h
        refine .manyPositional ?_ hmany
        by_contra hnamed
        have hpositional : n.positional ≠ [] := by
          rintro hnil
          simp [hnil] at hmany
        simp [hpositional, hnamed] at hmixed
      · cases h
    · rintro (⟨hsplit, hfresh, hagain⟩ | ⟨-, hpositional, hnamed⟩ | ⟨hnamed, hmany⟩)
      · have := firstRepeat?_eq_some_iff.mpr ⟨_, _, hsplit, hfresh, hagain⟩
        rw [hrepeat] at this
        cases this
      · simp [hpositional, hnamed]
      · simp [hnamed, hmany]

/-- Arguments that go together make an annotation of them. -/
theorem lower_eq_ok_iff :
    n.lower = .ok a ↔ n.Coherent ∧ a = ⟨n.name.dotted, n.positional.head?, n.named⟩ := by
  constructor
  · intro h
    rw [lower_eq] at h
    split at h
    · cases h
    -- the three refusals are ruled out one after another
    next hrepeat =>
    split at h
    · cases h
    next hmixed =>
    split at h
    · cases h
    next hmany =>
    cases h
    refine ⟨⟨firstRepeat?_eq_none_iff.mp hrepeat, ?_, by omega⟩, rfl⟩
    simpa [or_iff_not_imp_left] using hmixed
  · rintro ⟨⟨hkeys, hapart, hsingle⟩, rfl⟩
    rw [lower_eq, firstRepeat?_eq_none_iff.mpr hkeys]
    dsimp only
    rw [if_neg, if_neg (by omega)]
    rcases hapart with h | h <;> simp [h]

end Tree.Annot

/-! ## §3 Places and sides -/

/-- What is wrong with a coordinate of a place: its value, and only then its name. -/
inductive CoordinateFault : Pair → ArgFault → Prop where
  | notNatural {p : Pair} (large : ∀ k, p.value.toNat? = some k → 2 ^ 32 ≤ k) :
      CoordinateFault p (.notNatural p.key)
  | unknownKey {p : Pair} {k : Nat} (value : p.value.toNat? = some k) (small : k < 2 ^ 32)
      (key : p.key ≠ "line" ∧ p.key ≠ "col") : CoordinateFault p (.unknownKey p.key)

/-- What is wrong with a side of a service: its value, and only then its name. -/
inductive SideFault : Pair → ArgFault → Prop where
  | notBool {p : Pair} (other : ∀ b, p.value ≠ .bool b) : SideFault p (.notBool p.key)
  | unknownKey {p : Pair} {b : Bool} (value : p.value = .bool b)
      (key : p.key ≠ "client" ∧ p.key ≠ "server") : SideFault p (.unknownKey p.key)

theorem setCoordinate_eq_error_iff (pos : Pos) (p : Pair) (e : ArgFault) :
    setCoordinate pos p = .error e ↔ CoordinateFault p e := by
  unfold setCoordinate
  cases hvalue : p.value.toNat? with
  | none =>
    constructor
    · rintro ⟨⟩
      exact .notNatural (by simp [hvalue])
    · rintro (⟨-⟩ | ⟨hk, -, -⟩)
      · rfl
      · rw [hvalue] at hk
        cases hk
  | some k =>
    dsimp only
    split
    · next hlarge =>
      constructor
      · rintro ⟨⟩
        exact .notNatural (by simpa [hvalue] using hlarge)
      · rintro (⟨-⟩ | ⟨hk, hsmall, -⟩)
        · rfl
        · rw [hvalue] at hk
          cases hk
          omega
    next hsmall =>
    -- the value is all right, so that only the name can be wrong
    have hnot : ¬ ∀ j, p.value.toNat? = some j → 2 ^ 32 ≤ j := fun h => hsmall (h k hvalue)
    simp only [beq_iff_eq]
    split
    · next hline =>
      refine iff_of_false nofun ?_
      rintro (⟨hlarge⟩ | ⟨-, -, hkey⟩)
      · exact hnot hlarge
      · exact hkey.1 hline
    split
    · next hcol =>
      refine iff_of_false nofun ?_
      rintro (⟨hlarge⟩ | ⟨-, -, hkey⟩)
      · exact hnot hlarge
      · exact hkey.2 hcol
    next hline hcol =>
    constructor
    · rintro ⟨⟩
      exact .unknownKey hvalue (by omega) ⟨hline, hcol⟩
    · rintro (⟨hlarge⟩ | ⟨-, -, -⟩)
      · exact absurd hlarge hnot
      · rfl

theorem setSide_eq_error_iff (sides : Option Bool × Option Bool) (p : Pair) (e : ArgFault) :
    setSide sides p = .error e ↔ SideFault p e := by
  unfold setSide
  -- a value that is no truth value is refused first, then an unknown key
  split
  · next b hvalue =>
    simp only [beq_iff_eq]
    have hnot : ¬ ∀ b, p.value ≠ .bool b := fun h => h b hvalue
    split
    · next hclient =>
      refine iff_of_false nofun ?_
      rintro (⟨hother⟩ | ⟨-, hkey⟩)
      · exact hnot hother
      · exact hkey.1 hclient
    split
    · next hserver =>
      refine iff_of_false nofun ?_
      rintro (⟨hother⟩ | ⟨-, hkey⟩)
      · exact hnot hother
      · exact hkey.2 hserver
    next hclient hserver =>
    constructor
    · rintro ⟨⟩
      exact .unknownKey hvalue ⟨hclient, hserver⟩
    · rintro (⟨hother⟩ | ⟨-, -⟩)
      · exact absurd hother hnot
      · rfl
  · next hother =>
    constructor
    · rintro ⟨⟩
      exact .notBool hother
    · rintro (⟨-⟩ | ⟨hvalue, -⟩)
      · rfl
      · exact absurd hvalue (hother _)

/-- Named values that have to be there are refused if there are none, or for the first one at
fault. -/
theorem ite_foldlM_eq_error_iff {σ : Type} {fault : Pair → ArgFault → Prop}
    {step : σ → Pair → Except ArgFault σ} (hstep : ∀ s p e, step s p = .error e ↔ fault p e)
    (s : σ) (missing e : ArgFault) (l : List Pair) :
    (if l.isEmpty then .error missing else l.foldlM step s) = .error e
      ↔ (l = [] ∧ e = missing) ∨ FirstFault fault l e := by
  cases l with
  | nil =>
    simp only [List.isEmpty_nil, if_true, Except.error.injEq, true_and]
    constructor
    · exact fun h => .inl h.symm
    · rintro (rfl | ⟨p, hp, -⟩)
      · rfl
      · exact absurd hp not_firstOf_nil
  | cons p r =>
    rw [List.isEmpty_cons, if_neg (by decide), foldlM_eq_error_iff hstep]
    simp

theorem sourceOf_eq_error_iff {a : Annot} {e : ArgFault} :
    sourceOf a = .error e
      ↔ (a.pairs = [] ∧ e = .wantsPlace) ∨ FirstFault CoordinateFault a.pairs e :=
  ite_foldlM_eq_error_iff setCoordinate_eq_error_iff _ _ _ _

theorem sidesOf_eq_error_iff {a : Annot} {e : ArgFault} :
    sidesOf a = .error e
      ↔ (a.pairs = [] ∧ e = .wantsSides) ∨ FirstFault SideFault a.pairs e :=
  ite_foldlM_eq_error_iff setSide_eq_error_iff _ _ _ _

/-! ## §4 The rules -/

namespace Tree.Annot

/-- The rule that an annotation in front of a target breaks. Arguments that do not go together
count first; then a name that is out of place, which has a number of its own; then what the name
asks of its arguments. -/
@[mk_iff]
inductive Faulty (target : Target) (n : Annot) : Nat → SchemaCause → Prop where
  | clash {e : ArgFault} (h : n.Clash e) : Faulty target n 3009 (.malformedAnnot n.name.dotted e)
  /-- Documentation is one text. -/
  | doc (args : n.Coherent) (name : n.name.dotted = Annot.docName)
      (h : ∀ t, n.positional ≠ [.text t]) :
      Faulty target n 3009 (.malformedAnnot n.name.dotted .wantsText)
  /-- A place has a line or a column, both of them numbers of 32 bits. -/
  | noPlace (args : n.Coherent) (name : n.name.dotted = Annot.sourceName) (h : n.named = []) :
      Faulty target n 3009 (.malformedAnnot n.name.dotted .wantsPlace)
  | badPlace {e : ArgFault} (args : n.Coherent) (name : n.name.dotted = Annot.sourceName)
      (h : FirstFault CoordinateFault n.named e) :
      Faulty target n 3009 (.malformedAnnot n.name.dotted e)
  /-- Only a service has sides. -/
  | misplacedSides (args : n.Coherent) (name : n.name.dotted = Annot.codegenName)
      (h : target ≠ .service) : Faulty target n 3008 (.misplacedAnnot n.name.dotted target)
  /-- The sides are the client and the server, each wanted or not. -/
  | noSides (args : n.Coherent) (name : n.name.dotted = Annot.codegenName)
      (service : target = .service) (h : n.named = []) :
      Faulty target n 3009 (.malformedAnnot n.name.dotted .wantsSides)
  | badSides {e : ArgFault} (args : n.Coherent) (name : n.name.dotted = Annot.codegenName)
      (service : target = .service) (h : FirstFault SideFault n.named e) :
      Faulty target n 3009 (.malformedAnnot n.name.dotted e)
  /-- Only a field has a default. -/
  | misplacedDefault (args : n.Coherent) (name : n.name.dotted = Annot.defaultName)
      (h : target ≠ .field) : Faulty target n 3008 (.misplacedAnnot n.name.dotted target)
  /-- A default is a value, or a single one under the name `value`. -/
  | noDefault (args : n.Coherent) (name : n.name.dotted = Annot.defaultName)
      (field : target = .field) (positional : n.positional = [])
      (h : ∀ p, n.named = [p] → p.key ≠ "value") :
      Faulty target n 3009 (.malformedAnnot n.name.dotted .wantsValue)

/-! ## §5 Annotations that are refused -/

variable {target : Target} {n : Annot} {a : Idl.Annot}

/-- What is read of an annotation whose arguments are refused. -/
theorem interpret_of_error {e : ArgFault} (h : n.lower = .error e) :
    n.interpret target = .error (.malformedAnnot n.name.dotted e) := by
  simp [interpret, h, Except.mapError, bind, Except.bind]

/-- The text of documentation. -/
def docOf (a : Idl.Annot) : Except ArgFault Bytes :=
  match a.value with
  | some (.text t) => .ok t
  | _ => .error .wantsText

/-- What is read of an annotation whose arguments go together, by its name. -/
theorem interpret_of_ok (h : n.lower = .ok a) :
    n.interpret target =
      if n.name.dotted = Annot.docName then
        ((docOf a).map Meaning.doc).mapError (.malformedAnnot n.name.dotted)
      else if n.name.dotted = Annot.sourceName then
        ((sourceOf a).map Meaning.source).mapError (.malformedAnnot n.name.dotted)
      else if n.name.dotted = Annot.codegenName then
        if target = .service then
          ((sidesOf a).map fun s => Meaning.codegen a s.1 s.2).mapError
            (.malformedAnnot n.name.dotted)
        else .error (.misplacedAnnot n.name.dotted target)
      else if n.name.dotted = Annot.defaultName then
        if target = .field then
          if givesValue a then .ok (.other a)
          else .error (.malformedAnnot n.name.dotted .wantsValue)
        else .error (.misplacedAnnot n.name.dotted target)
      else .ok (.other a) := by
  unfold interpret
  simp only [h, Except.mapError, bind, Except.bind, beq_iff_eq, bne_iff_ne, ite_not]
  -- both sides ask for the same names, one after the other
  congr 1
  · unfold docOf
    cases a.value with
    | none => rfl
    | some v => cases v <;> rfl
  congr 1
  · cases sourceOf a <;> rfl
  congr 1
  · congr 1
    cases sidesOf a <;> rfl
  congr 1
  · congr 1
    cases givesValue a <;> rfl

theorem docOf_eq_error_iff {e : ArgFault} :
    docOf a = .error e ↔ e = .wantsText ∧ ∀ t, a.value ≠ some (.text t) := by
  unfold docOf
  split
  · next t ht => exact iff_of_false nofun fun h => h.2 t ht
  · next hother =>
    constructor
    · rintro ⟨⟩
      exact ⟨rfl, hother⟩
    · rintro ⟨rfl, -⟩
      rfl

theorem mapError_map_eq_error_iff {α : Type} {r : Except ArgFault α} {g : α → Meaning}
    {name : Bytes} {cause : SchemaCause} :
    (r.map g).mapError (.malformedAnnot name) = .error cause
      ↔ ∃ e, r = .error e ∧ cause = .malformedAnnot name e := by
  cases r with
  | error e => simp [Except.map, Except.mapError, eq_comm]
  | ok a => simp [Except.map, Except.mapError]

/-- A single value is the only one without a name. -/
theorem Coherent.positional_eq {v : Idl.Value} (h : n.Coherent) :
    n.positional.head? = some v ↔ n.positional = [v] := by
  have hsingle := h.single
  generalize n.positional = l at hsingle ⊢
  rcases l with _ | ⟨w, _ | ⟨x, r⟩⟩
  · simp
  · simp
  · simp at hsingle

theorem givesValue_eq_false_iff {name : Bytes} {value : Option Idl.Value} {pairs : List Pair} :
    givesValue ⟨name, value, pairs⟩ = false
      ↔ value = none ∧ ∀ p, pairs = [p] → p.key ≠ "value" := by
  unfold givesValue
  rcases pairs with _ | ⟨p, _ | ⟨q, r⟩⟩ <;> cases value <;> simp

theorem ite_eq_error_iff {b : Bool} {m : Meaning} {c cause : SchemaCause} :
    (if b then .ok m else .error c) = (.error cause : Except SchemaCause Meaning)
      ↔ b = false ∧ cause = c := by
  cases b <;> simp [eq_comm]

/-- The number of an error says nothing that its cause does not say. -/
theorem codes_and {cause : SchemaCause} {name : Bytes} :
    (∀ e, (cause.code = 3009 ∧ cause = .malformedAnnot name e) ↔ cause = .malformedAnnot name e)
      ∧ ∀ t, (cause.code = 3008 ∧ cause = .misplacedAnnot name t)
        ↔ cause = .misplacedAnnot name t :=
  ⟨fun _ => and_iff_right_of_imp fun h => h ▸ rfl, fun _ => and_iff_right_of_imp fun h => h ▸ rfl⟩

/-- The names with a meaning are different. -/
theorem names_ne :
    (Annot.sourceName ≠ Annot.docName ∧ Annot.docName ≠ Annot.sourceName)
      ∧ (Annot.codegenName ≠ Annot.docName ∧ Annot.docName ≠ Annot.codegenName)
      ∧ (Annot.codegenName ≠ Annot.sourceName ∧ Annot.sourceName ≠ Annot.codegenName)
      ∧ (Annot.defaultName ≠ Annot.docName ∧ Annot.docName ≠ Annot.defaultName)
      ∧ (Annot.defaultName ≠ Annot.sourceName ∧ Annot.sourceName ≠ Annot.defaultName)
      ∧ (Annot.defaultName ≠ Annot.codegenName ∧ Annot.codegenName ≠ Annot.defaultName) := by
  decide

/-- An annotation is refused exactly if it breaks a rule, and for the reason that the rule gives. -/
theorem interpret_eq_error_iff {cause : SchemaCause} :
    n.interpret target = .error cause ↔ n.Faulty target cause.code cause := by
  cases hlower : n.lower with
  | error e =>
    -- all rules but the first are about arguments that go together
    have hnot : ¬ n.Coherent := by
      intro hargs
      rw [lower_eq_ok_iff.mpr ⟨hargs, rfl⟩] at hlower
      cases hlower
    rw [interpret_of_error hlower]
    have hunique (e' : ArgFault) : n.Clash e' ↔ e' = e := by
      rw [← lower_eq_error_iff, hlower, Except.error.injEq, eq_comm]
    simp [faulty_iff, hnot, hunique, codes_and, Eq.comm (b := cause)]
  | ok a =>
    obtain ⟨hargs, rfl⟩ := lower_eq_ok_iff.mp hlower
    have hnot (e : ArgFault) : ¬ n.Clash e := by
      intro h
      rw [lower_eq_error_iff.mpr h] at hlower
      cases hlower
    rw [interpret_of_ok hlower, faulty_iff]
    by_cases hdoc : n.name.dotted = Annot.docName
    · have hvalue (t : Bytes) : n.positional.head? ≠ some (.text t) ↔ n.positional ≠ [.text t] :=
        not_congr hargs.positional_eq
      simp [hdoc, hnot, hargs, names_ne, codes_and, mapError_map_eq_error_iff, docOf_eq_error_iff,
        hvalue, and_comm]
    by_cases hsource : n.name.dotted = Annot.sourceName
    · simp [hsource, hnot, hargs, names_ne, codes_and, mapError_map_eq_error_iff,
        sourceOf_eq_error_iff, or_and_right, exists_or]
    by_cases hcodegen : n.name.dotted = Annot.codegenName
    · by_cases htarget : target = .service
      · simp [hcodegen, htarget, hnot, hargs, names_ne, codes_and, mapError_map_eq_error_iff,
          sidesOf_eq_error_iff, or_and_right, exists_or]
      · simp [hcodegen, htarget, hnot, hargs, names_ne, codes_and, Eq.comm (b := cause)]
    by_cases hdefault : n.name.dotted = Annot.defaultName
    · by_cases htarget : target = .field
      · simp [hdefault, htarget, hnot, hargs, names_ne, codes_and, ite_eq_error_iff,
          givesValue_eq_false_iff, and_assoc]
      · simp [hdefault, htarget, hnot, hargs, names_ne, codes_and, Eq.comm (b := cause)]
    · simp [hdoc, hsource, hcodegen, hdefault, hnot]

/-! ## §6 Annotations that are taken -/

/-- What an annotation with given arguments says in front of a target, by its name. -/
inductive Says (target : Target) (n : Annot) (a : Idl.Annot) : Meaning → Prop where
  | doc {t : Bytes} (name : n.name.dotted = Annot.docName) (h : a.value = some (.text t)) :
      Says target n a (.doc t)
  | source {p : Pos} (name : n.name.dotted = Annot.sourceName) (h : sourceOf a = .ok p) :
      Says target n a (.source p)
  | codegen {sides : Option Bool × Option Bool} (name : n.name.dotted = Annot.codegenName)
      (service : target = .service) (h : sidesOf a = .ok sides) :
      Says target n a (.codegen a sides.1 sides.2)
  | default (name : n.name.dotted = Annot.defaultName) (field : target = .field)
      (h : givesValue a = true) : Says target n a (.other a)
  /-- All other names are free. -/
  | other (doc : n.name.dotted ≠ Annot.docName) (source : n.name.dotted ≠ Annot.sourceName)
      (codegen : n.name.dotted ≠ Annot.codegenName)
      (default : n.name.dotted ≠ Annot.defaultName) : Says target n a (.other a)

theorem docOf_eq_ok_iff {t : Bytes} : docOf a = .ok t ↔ a.value = some (.text t) := by
  unfold docOf
  split
  · next u hu => simp [hu]
  · next hother => exact iff_of_false nofun (hother t)

theorem mapError_map_eq_ok_iff {α : Type} {r : Except ArgFault α} {g : α → Meaning}
    {name : Bytes} {m : Meaning} :
    (r.map g).mapError (SchemaCause.malformedAnnot name) = .ok m ↔ ∃ y, r = .ok y ∧ m = g y := by
  cases r with
  | error e => exact iff_of_false nofun fun ⟨y, hy, _⟩ => nomatch hy
  | ok y => simp [Except.map, Except.mapError, eq_comm]

/-- An annotation is taken exactly if its arguments go together and its name may say what it says
where it stands. -/
theorem interpret_eq_ok_iff {m : Meaning} :
    n.interpret target = .ok m ↔ ∃ a, n.lower = .ok a ∧ n.Says target a m := by
  cases hlower : n.lower with
  | error e =>
    rw [interpret_of_error hlower]
    exact iff_of_false nofun fun ⟨a, ha, _⟩ => nomatch ha
  | ok a =>
    rw [interpret_of_ok hlower]
    constructor
    · intro h
      refine ⟨a, rfl, ?_⟩
      -- the names in the order in which they are asked for
      by_cases hdoc : n.name.dotted = Annot.docName
      · rw [if_pos hdoc, mapError_map_eq_ok_iff] at h
        obtain ⟨t, ht, rfl⟩ := h
        exact .doc hdoc (docOf_eq_ok_iff.mp ht)
      rw [if_neg hdoc] at h
      by_cases hsource : n.name.dotted = Annot.sourceName
      · rw [if_pos hsource, mapError_map_eq_ok_iff] at h
        obtain ⟨p, hp, rfl⟩ := h
        exact .source hsource hp
      rw [if_neg hsource] at h
      by_cases hcodegen : n.name.dotted = Annot.codegenName
      · rw [if_pos hcodegen] at h
        by_cases htarget : target = .service
        · rw [if_pos htarget, mapError_map_eq_ok_iff] at h
          obtain ⟨sides, hsides, rfl⟩ := h
          exact .codegen hcodegen htarget hsides
        · rw [if_neg htarget] at h
          cases h
      rw [if_neg hcodegen] at h
      by_cases hdefault : n.name.dotted = Annot.defaultName
      · rw [if_pos hdefault] at h
        by_cases htarget : target = .field
        · rw [if_pos htarget] at h
          by_cases hgives : givesValue a = true
          · rw [if_pos hgives] at h
            cases h
            exact .default hdefault htarget hgives
          · rw [if_neg hgives] at h
            cases h
        · rw [if_neg htarget] at h
          cases h
      · rw [if_neg hdefault] at h
        cases h
        exact .other hdoc hsource hcodegen hdefault
    · rintro ⟨_, ⟨⟩, h⟩
      -- the names differ, so each case fails the questions before its own
      cases h with
      | doc name h => simp [name, mapError_map_eq_ok_iff, docOf_eq_ok_iff, h]
      | source name h => simp [name, names_ne, mapError_map_eq_ok_iff, h]
      | @codegen sides name service h =>
        rw [name, if_neg names_ne.2.1.1, if_neg names_ne.2.2.1.1, if_pos rfl, if_pos service]
        exact mapError_map_eq_ok_iff.mpr ⟨sides, h, rfl⟩
      | default name field h => simp [name, field, names_ne, h]
      | other doc source codegen default => simp [doc, source, codegen, default]

end Tree.Annot

end Idl
