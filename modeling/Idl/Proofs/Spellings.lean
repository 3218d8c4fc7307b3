import Idl.Proofs.Compile.Portable
import Idl.Proofs.Spelling.Alike
import Idl.Proofs.Spelling.Coverage
import Idl.Proofs.Spelling.Reading

/-!
# Spelling does not count

A source is read as the tree of the form that spells it, and forms that differ in spelling have
alike trees. So sources that differ in spelling have the same canonical encoding and the same
identifiers, wherever in the file the place is at which they differ.

* §1 what identifies a source, §2 sources in another spelling.
-/

namespace Idl

/-! ## §1 What identifies a source -/

/-- Schemas with the same encoding, the same identifier and the same identifiers of services. -/
structure Schema.SameIdentity (s t : Schema) : Prop where
  encoding : s.encoding = t.encoding
  id : s.id = t.id
  services : s.services.map (·.id) = t.services.map (·.id)

namespace Schema.SameIdentity

variable {s t u : Schema}

theorem symm (h : s.SameIdentity t) : t.SameIdentity s :=
  ⟨h.encoding.symm, h.id.symm, h.services.symm⟩

theorem trans (h : s.SameIdentity t) (h' : t.SameIdentity u) : s.SameIdentity u :=
  ⟨h.encoding.trans h'.encoding, h.id.trans h'.id, h.services.trans h'.services⟩

/-- Positions have no part in the identity. -/
theorem of_erase (h : s.erase = t.erase) : s.SameIdentity t := by
  have hid : s.erase.id = t.erase.id := by rw [h]
  refine ⟨?_, hid, ?_⟩
  · rw [← s.encoding_erase, h, t.encoding_erase]
  · have hids (s : Schema) : s.erase.services.map (·.id) = s.services.map (·.id) := by
      simp [Schema.erase, Function.comp_def, Service.erase]
    rw [← hids s, h, hids t]

end Schema.SameIdentity

/-- Alike files with which nothing is wrong have the same identity. -/
theorem Tree.File.Alike.sameIdentity {f g : Tree.File} (h : f.Alike g) (hf : f.errors = [])
    (hg : g.errors = []) (p q : Bytes) : (f.schema p).SameIdentity (g.schema q) := by
  have halike := h.draft hf hg p q
  obtain ⟨hid, hservices⟩ := halike.identify_ids
  exact ⟨halike.identify.encoding_eq.symm, hid, hservices⟩

/-- The meaning of a source has the identity of the meaning of its form. -/
theorem exists_sameIdentity_of_spells {f : Spelling.File} {src sourcePath : Bytes}
    {allowMissingPackage : Bool} {c : Compilation} {s : Schema} (hspells : f.Spells src)
    (hc : compileSource src sourcePath allowMissingPackage = .ok c) (hs : c.outcome = .ok s) :
    f.tree.errors = [] ∧ f.packages.length ≤ 1 ∧ s.SameIdentity (f.tree.schema sourcePath) := by
  obtain ⟨x, hx, herrors, rfl⟩ := exists_of_compileSource hc hs
  obtain ⟨htree, hpackages⟩ := parseFile_of_spells hspells hx
  rw [← htree]
  exact ⟨Tree.File.errors_erase_eq_nil_iff.mpr herrors, hpackages,
    .of_erase (x.schema_mapLoc _ sourcePath).symm⟩

/-! ## §2 Sources in another spelling -/

/-- Every source that is accepted is spelled by a form, which tells what the source means. Two
sources whose forms differ in the spelling at one place, wherever that is, have the same canonical
encoding, the same identifier and the same identifiers of services, if both of them compile. -/
theorem sameIdentity_of_respelled :
    (∀ (src : Bytes) (allowMissingPackage : Bool) (x : Tree.File),
      parseFile src allowMissingPackage = .ok x →
        ∃ f : Spelling.File, f.Spells src ∧ x.erase = f.tree)
    ∧ ∀ f g : Spelling.File, f.Respelled g → ∀ a b : Bytes, f.Spells a → g.Spells b →
      ∀ (p q : Bytes) (m n : Bool) (c d : Compilation) (s t : Schema),
        compileSource a p m = .ok c → compileSource b q n = .ok d →
        c.outcome = .ok s → d.outcome = .ok t → s.SameIdentity t := by
  constructor
  · intro src allowMissingPackage x hx
    obtain ⟨f, hf⟩ := exists_spells hx
    exact ⟨f, hf, (parseFile_of_spells hf hx).1⟩
  · intro f g hfg a b ha hb p q m n c d s t hc hd hs ht
    obtain ⟨hf, hfone, hsf⟩ := exists_sameIdentity_of_spells ha hc hs
    obtain ⟨hg, hgone, htg⟩ := exists_sameIdentity_of_spells hb hd ht
    have halike : f.tree.Alike g.tree := hfg.alike hfone hgone
    exact hsf.trans ((halike.sameIdentity hf hg p q).trans htg.symm)

/-- A method whose input has the package in front of its name, or not. -/
theorem sameIdentity_of_respelled_qualified :
    let a : Bytes := "package p.q;message M\x7b\x7dservice S\x7brpc get(M);\x7d"
    let b : Bytes := "package p.q; message M \x7b\x7d service S \x7b rpc get(p::q.M); \x7d"
    ∃ c d s t, compileSource a [] false = .ok c ∧ compileSource b [] false = .ok d
      ∧ c.outcome = .ok s ∧ d.outcome = .ok t ∧ s.SameIdentity t := by
  intro a b
  -- all that differs is how the type of the method is written
  let package : Spelling.Path := ⟨.of "p" rfl, [(.dot, .of "q" rfl)]⟩
  let bare : Spelling.Path := ⟨.of "M" rfl, []⟩
  let qualified : Spelling.Path := ⟨.of "p" rfl, [(.doubleColon, .of "q" rfl), (.dot, .of "M" rfl)]⟩
  let before : List (Spelling.Item Spelling.Statement) :=
    [.member (.package package), .member (.message ⟨.of "M" rfl, []⟩)]
  let service (type : Spelling.Path) : Spelling.Statement := .service ⟨.of "S" rfl,
    [.member ⟨.of "get" rfl, some (.parens (some type)), none, .semicolon⟩]⟩
  have hspells (src : Bytes) (f : Spelling.File)
      (h : (lex src).toOption.any (fun l =>
        decide (l.significant.map Token.lexeme = f.lexemes)) = true) : f.Spells src := by
    obtain ⟨l, hl, hlexemes⟩ := exists_of_toOption_any h
    exact ⟨l, hl, of_decide_eq_true hlexemes⟩
  have ha : (⟨before ++ .member (service bare) :: []⟩ : Spelling.File).Spells a :=
    hspells _ _ (by decide +kernel)
  have hb : (⟨before ++ .member (service qualified) :: []⟩ : Spelling.File).Spells b :=
    hspells _ _ (by decide +kernel)
  have hcompiles (src : Bytes)
      (h : (compileSource src [] false).toOption.any (·.outcome.isOk) = true) :
      ∃ c s, compileSource src [] false = .ok c ∧ c.outcome = .ok s := exists_outcome_eq_ok h
  obtain ⟨c, s, hc, hs⟩ := hcompiles a (by decide +kernel)
  obtain ⟨d, t, hd, ht⟩ := hcompiles b (by decide +kernel)
  have hrespelled : Spelling.File.Respelled ⟨before ++ .member (service bare) :: []⟩
      ⟨before ++ .member (service qualified) :: []⟩ :=
    .items (.member before [] (.service (.body _ (.member [] [] (.input _ (.parensType
      (.qualified (.of "M" rfl) rfl (by decide) rfl)) none .semicolon)))))
  exact ⟨c, d, s, t, hc, hd, hs, ht,
    sameIdentity_of_respelled.2 _ _ hrespelled a b ha hb [] [] false false c d s t hc hd hs ht⟩

end Idl
