import Idl.Tree.Parse
import Mathlib.Computability.Language

/-!
# The language

What the grammar is meant to accept, as sets of token sequences. Sequence, choice and repetition
are those of formal languages: `L * M`, `L + M` and `L∗`. Nothing here says how tokens are read.

* §1 single tokens, §2 names and constants, §3 annotations,
* §4 messages, §5 services, §6 files,
* §7 what a sequence of tokens takes up in a source.
-/

namespace Idl

namespace Phrase

open scoped Computability

/-! ## §1 Single tokens -/

/-- One token with a property. -/
def one (p : Token → Prop) : Language Token := fun w => ∃ t, w = [t] ∧ p t

/-- One token of a kind. -/
def sign (kind : TokenKind) : Language Token := one fun t => t.kind = kind

/-- One given word. -/
def word (text : Bytes) : Language Token := one fun t => t.isWord text = true

/-- A phrase that may be left out. -/
def maybe (L : Language Token) : Language Token := 1 + L

section Membership

variable {L M : Language Token} {v w : List Token}

theorem nil_mem_maybe : [] ∈ maybe L := .inl rfl

theorem mem_maybe (h : w ∈ L) : w ∈ maybe L := .inr h

/-- A repetition goes on. -/
theorem kstar_append (hw : w ∈ L∗) (hv : v ∈ L) : w ++ v ∈ L∗ :=
  (kstar_mul_le_kstar (a := L)) (Language.append_mem_mul hw hv)

theorem one_ne_nil {p : Token → Prop} : ∀ w ∈ one p, w ≠ [] := by
  rintro w ⟨t, rfl, -⟩
  simp

/-- A sequence is not empty if its first part is not. -/
theorem mul_ne_nil (h : ∀ w ∈ L, w ≠ []) : ∀ w ∈ L * M, w ≠ [] := by
  intro w hw
  obtain ⟨a, ha, b, -, rfl⟩ := Language.mem_mul.mp hw
  simp [h a ha]

end Membership

/-! ## §2 Names and constants -/

/-- A name of one component. -/
def name : Language Token := sign .ident

/-- A name of one component that is none of some words. -/
def nameBut (words : List Bytes) : Language Token :=
  one fun t => t.kind = .ident ∧ t.text ∉ words

/-- A dotted name that does not begin with any of some words. -/
def pathBut (words : List Bytes) : Language Token :=
  nameBut words * ((sign .dot + sign .doubleColon) * name)∗

/-- A dotted name. -/
def path : Language Token := pathBut []

theorem name_mem_path {t : Token} (h : t.kind = .ident) : [t] ∈ path :=
  Language.mem_mul.mpr ⟨[t], ⟨t, rfl, h, List.not_mem_nil⟩, [], Language.nil_mem_kstar _, rfl⟩

/-- A dotted name that begins with none of some words. -/
theorem mem_pathBut {words : List Bytes} {t : Token} {w r v : List Token} (hw : w ∈ path)
    (hrest : t :: r = w ++ v) (ht : t.text ∉ words) : w ∈ pathBut words := by
  obtain ⟨a, ⟨u, rfl, hu, -⟩, b, hb, rfl⟩ := Language.mem_mul.mp hw
  obtain rfl : t = u := (List.cons.inj hrest).1
  exact Language.append_mem_mul ⟨t, rfl, hu, ht⟩ hb

/-- A whole number that 64 bits can hold, with or without a sign. -/
def intLit : Language Token :=
  one fun t => t.kind.isInteger = true
    ∧ -(2 ^ 63) ≤ intLitValue t.kind t.text ∧ intLitValue t.kind t.text ≤ 2 ^ 64 - 1

/-- A number that is not too large for the 64-bit format. -/
def floatLit : Language Token :=
  one fun t => t.kind = .floatLit ∧ (Binary64.ofNumeral? t.text).isSome = true

/-- A text literal that denotes given octets. -/
def textLitOf (value : Bytes) : Language Token :=
  one fun t => t.kind = .textLit ∧ textLitValue t.text = .ok value

/-- A text literal whose escapes are all well formed. -/
def textLit : Language Token := fun w => ∃ value, w ∈ textLitOf value

/-- Words that are constants and no names. -/
def constantWords : List Bytes := ["true", "false", "inf", "nan"]

/-- The parser tells constants from names by these words. -/
theorem mem_constantWords {text : Bytes} : text ∈ Grammar.constantWords ↔ text ∈ constantWords :=
  .rfl

/-- One of the words that are constants. -/
def constantWord : Language Token := one fun t => t.kind = .ident ∧ t.text ∈ constantWords

/-- A constant that is no name. -/
def literal : Language Token := intLit + floatLit + textLit + constantWord

/-- A constant. -/
def value : Language Token := literal + pathBut constantWords

/-! ## §3 Annotations -/

/-- An argument: a constant that is no name, or a name that may have a value. -/
def arg : Language Token :=
  literal + nameBut constantWords * maybe (sign .eq * value)

/-- Arguments with commas between them; a last comma may follow. -/
def args : Language Token := arg * (sign .comma * arg)∗ * maybe (sign .comma)

/-- An annotation without the semicolon that may follow it. -/
def bareAnnot : Language Token :=
  sign .atSign * path * maybe (sign .openParen * maybe args * sign .closeParen)

/-- An annotation. -/
def annot : Language Token := bareAnnot * maybe (sign .semicolon)

theorem annot_ne_nil : ∀ w ∈ annot, w ≠ [] := mul_ne_nil (mul_ne_nil (mul_ne_nil one_ne_nil))

/-- What may stand in front of a declaration or member: annotations, and among them semicolons. -/
def front : Language Token := maybe (annot * (sign .semicolon + annot)∗)

/-! ## §4 Messages -/

/-- Words that look like types and are none. -/
def typeWords : List Bytes :=
  ["fixed32", "fixed64", "sfixed32", "sfixed64", "sint32", "sint64", "stream"]

theorem unsupportedType?_eq_none {text : Bytes} :
    Grammar.unsupportedType? text = none ↔ text ∉ typeWords := by
  unfold Grammar.unsupportedType? typeWords
  simp only [Bool.or_eq_true, beq_iff_eq, List.mem_cons, List.not_mem_nil]
  grind

/-- Words that cannot begin a member of a message. -/
def memberWords : List Bytes :=
  ["message", "enum", "oneof", "reserved", "option", "extensions", "extend", "repeated"]

theorem unsupportedMember?_eq_none {text : Bytes} :
    Grammar.unsupportedMember? text = none ↔ text ∉ memberWords := by
  unfold Grammar.unsupportedMember? memberWords
  simp only [beq_iff_eq, List.mem_cons, List.not_mem_nil]
  grind

/-- A reference to a type that does not begin with any of some words. -/
def typeBut (words : List Bytes) : Language Token := pathBut (words ++ typeWords)

/-- A reference to a type. -/
def type : Language Token := typeBut []

/-- A reference to a type that begins with none of some words. -/
theorem mem_typeBut {words : List Bytes} {t : Token} {r : List Token} (h : t :: r ∈ type)
    (ht : t.text ∉ words) : t :: r ∈ typeBut words := by
  obtain ⟨a, ⟨u, rfl, hu, hword⟩, b, hb, hr⟩ := Language.mem_mul.mp h
  obtain ⟨rfl, rfl⟩ := List.cons.inj hr
  refine Language.append_mem_mul (a := [u]) ⟨u, rfl, hu, fun hmem => ?_⟩ hb
  rcases List.mem_append.mp hmem with hmem | hmem
  · exact ht hmem
  · exact hword (List.mem_append_right _ hmem)

/-- The word in front of a field. -/
def label : Language Token := word "optional" + word "required"

/-- Words that cannot begin a field without such a word. -/
def bareFieldWords : List Bytes := "optional" :: "required" :: memberWords

/-- A field up to the semicolon. -/
def fieldHead : Language Token :=
  (label * typeBut ["repeated"] + typeBut bareFieldWords)
    * name * maybe (sign .question) * maybe (sign .eq * intLit)

/-- A field. -/
def field : Language Token :=
  (label * typeBut ["repeated"] + typeBut bareFieldWords)
    * name * maybe (sign .question) * maybe (sign .eq * intLit) * sign .semicolon

theorem pathBut_ne_nil {words : List Bytes} : ∀ w ∈ pathBut words, w ≠ [] := mul_ne_nil one_ne_nil

theorem field_ne_nil : ∀ w ∈ field, w ≠ [] := by
  refine mul_ne_nil (mul_ne_nil (mul_ne_nil (mul_ne_nil ?_)))
  rintro w (hlabelled | hbare)
  · refine mul_ne_nil ?_ w hlabelled
    rintro w (h | h)
    · exact one_ne_nil w h
    · exact one_ne_nil w h
  · exact pathBut_ne_nil w hbare

/-- Members in braces. Every annotation is followed by a member, with nothing but semicolons and
other annotations in between. -/
def body (member : Language Token) : Language Token :=
  sign .openCurl * (sign .semicolon + front * member)∗ * sign .closeCurl

/-- A message. -/
def message : Language Token := word "message" * name * body field

/-! ## §5 Services -/

/-- At most one type in parentheses. -/
def parens : Language Token := sign .openParen * maybe type * sign .closeParen

/-- The input of a method. -/
def input : Language Token := parens + typeBut ["returns"]

/-- The output of a method. -/
def output : Language Token := (word "returns" + sign .arrow) * (parens + type)

/-- The end of a method. -/
def methodEnd : Language Token :=
  sign .semicolon + sign .openCurl * (sign .semicolon)∗ * sign .closeCurl

/-- A method. -/
def method : Language Token := word "rpc" * name * maybe input * maybe output * methodEnd

theorem method_ne_nil : ∀ w ∈ method, w ≠ [] :=
  mul_ne_nil (mul_ne_nil (mul_ne_nil (mul_ne_nil one_ne_nil)))

/-- A service. -/
def service : Language Token := word "service" * name * body method

/-! ## §6 Files -/

/-- The statement that names the package. -/
def package : Language Token := word "package" * path * sign .semicolon

/-- The statement that names the version of the language, of which there is one. -/
def version : Language Token :=
  word "syntax" * sign .eq * textLitOf "proto3" * sign .semicolon

/-- An option of the file. -/
def setting : Language Token := word "option" * path * sign .eq * value * sign .semicolon

/-- Anything in a file but the package statement. Every annotation is followed by a declaration,
with nothing but semicolons and other annotations in between. -/
def statement : Language Token :=
  sign .semicolon + version + setting + front * (message + service)

/-- A file: one package statement, or at most one, among other statements. -/
def file (requirePackage : Bool) : Language Token :=
  statement∗ * (if requirePackage then package else maybe package) * statement∗

theorem message_ne_nil : ∀ w ∈ message, w ≠ [] := mul_ne_nil (mul_ne_nil one_ne_nil)

theorem service_ne_nil : ∀ w ∈ service, w ≠ [] := mul_ne_nil (mul_ne_nil one_ne_nil)

theorem package_ne_nil : ∀ w ∈ package, w ≠ [] := mul_ne_nil (mul_ne_nil one_ne_nil)

theorem version_ne_nil : ∀ w ∈ version, w ≠ [] := mul_ne_nil (mul_ne_nil (mul_ne_nil one_ne_nil))

theorem setting_ne_nil : ∀ w ∈ setting, w ≠ [] :=
  mul_ne_nil (mul_ne_nil (mul_ne_nil (mul_ne_nil one_ne_nil)))

/-- Statements with the package statement among them, or without it. -/
def statements (seen : Bool) : Language Token :=
  if seen then statement∗ * package * statement∗ else statement∗

/-- Statements go on. -/
theorem statements_append {seen : Bool} {v w : List Token} (hw : w ∈ statements seen)
    (hv : v ∈ statement) : w ++ v ∈ statements seen := by
  cases seen with
  | false => exact kstar_append hw hv
  | true =>
    obtain ⟨x, hx, y, hy, rfl⟩ := Language.mem_mul.mp hw
    rw [List.append_assoc]
    exact Language.append_mem_mul hx (kstar_append hy hv)

/-- Statements and then the package statement. -/
theorem statements_append_package {v w : List Token} (hw : w ∈ statements false)
    (hv : v ∈ package) : w ++ v ∈ statements true := by
  have := Language.append_mem_mul (Language.append_mem_mul hw hv)
    (Language.nil_mem_kstar statement)
  rwa [List.append_nil] at this

/-- A file is made of statements, the package statement among them if it has to be there. -/
theorem mem_file {requirePackage : Bool} {w : List Token} :
    w ∈ file requirePackage
      ↔ ∃ seen, (requirePackage = true → seen = true) ∧ w ∈ statements seen := by
  constructor
  · intro hw
    obtain ⟨_, hxy, z, hz, rfl⟩ := Language.mem_mul.mp hw
    obtain ⟨x, hx, y, hy, rfl⟩ := Language.mem_mul.mp hxy
    have hseen (h : y ∈ package) : x ++ y ++ z ∈ statements true :=
      Language.append_mem_mul (Language.append_mem_mul hx h) hz
    cases requirePackage with
    | true => exact ⟨true, fun _ => rfl, hseen hy⟩
    | false =>
      rcases hy with rfl | hy
      -- without a package the statements on both sides of it are one list
      · refine ⟨false, nofun, ?_⟩
        rw [List.append_nil]
        have : x ++ z ∈ statement∗ * statement∗ := Language.append_mem_mul hx hz
        rwa [kstar_mul_kstar] at this
      · exact ⟨true, fun _ => rfl, hseen hy⟩
  · rintro ⟨seen, hseen, hw⟩
    cases seen with
    | true =>
      obtain ⟨_, hxy, z, hz, rfl⟩ := Language.mem_mul.mp hw
      obtain ⟨x, hx, y, hy, rfl⟩ := Language.mem_mul.mp hxy
      refine Language.append_mem_mul (Language.append_mem_mul hx ?_) hz
      cases requirePackage with
      | true => exact hy
      | false => exact mem_maybe hy
    | false =>
      cases requirePackage with
      | true => cases hseen rfl
      | false =>
        have := Language.append_mem_mul (Language.append_mem_mul hw
          (nil_mem_maybe (L := package))) (Language.nil_mem_kstar statement)
        simpa [file, statements] using this

/-! ## §7 Room -/

/-- The octets that tokens take up at least: one for each token, and one more between two names. -/
def room : List Token → Nat
  | [] => 0
  | [_] => 1
  | t :: u :: r => (if t.kind = .ident ∧ u.kind = .ident then 2 else 1) + room (u :: r)

theorem room_append (v w : List Token) : room v + room w ≤ room (v ++ w) := by
  induction v with
  | nil => simp [room]
  | cons t r ih =>
    cases r with
    | nil =>
      cases w with
      | nil => simp [room]
      | cons u w =>
        simp only [room, List.cons_append, List.nil_append]
        split <;> omega
    | cons u r =>
      simp only [room, List.cons_append] at ih ⊢
      omega

/-- A dotted name ends in a name. -/
theorem exists_last_of_pathBut {words : List Bytes} {w : List Token} (h : w ∈ pathBut words) :
    ∃ v, ∃ t : Token, w = v ++ [t] ∧ t.kind = .ident := by
  obtain ⟨a, ⟨u, rfl, hu, -⟩, b, hb, rfl⟩ := Language.mem_mul.mp h
  obtain ⟨ws, rfl, hws⟩ := Language.mem_kstar.mp hb
  rcases List.eq_nil_or_concat ws with rfl | ⟨ws, x, rfl⟩
  · exact ⟨[], u, by simp, hu⟩
  · obtain ⟨s, -, n, ⟨t, rfl, ht⟩, rfl⟩ := Language.mem_mul.mp (hws x (by simp))
    exact ⟨[u] ++ ws.flatten ++ s, t, by simp, ht⟩

/-- A field takes up four octets: the type, a blank, the name and the semicolon. -/
theorem four_le_room {w : List Token} (h : w ∈ field) : 4 ≤ room w := by
  obtain ⟨_, hnumber, _, ⟨s, rfl, -⟩, rfl⟩ := Language.mem_mul.mp h
  obtain ⟨_, hquestion, d, -, rfl⟩ := Language.mem_mul.mp hnumber
  obtain ⟨_, hname, c, -, rfl⟩ := Language.mem_mul.mp hquestion
  obtain ⟨w, hfront, _, ⟨n, rfl, hn⟩, rfl⟩ := Language.mem_mul.mp hname
  have htype : ∃ v, ∃ t : Token, w = v ++ [t] ∧ t.kind = .ident := by
    rcases hfront with hlabelled | hbare
    · obtain ⟨l, -, x, hx, rfl⟩ := Language.mem_mul.mp hlabelled
      obtain ⟨v, t, rfl, ht⟩ := exists_last_of_pathBut hx
      exact ⟨l ++ v, t, by simp, ht⟩
    · exact exists_last_of_pathBut hbare
  obtain ⟨v, t, rfl, ht⟩ := htype
  have hnames : room [t, n] = 3 := by simp [room, ht, show n.kind = .ident from hn]
  have hw : v ++ [t] ++ [n] ++ c ++ d ++ [s] = v ++ ([t, n] ++ (c ++ d ++ [s])) := by simp
  have hfront := room_append v ([t, n] ++ (c ++ d ++ [s]))
  have hback := room_append [t, n] (c ++ d ++ [s])
  have hend := room_append (c ++ d) [s]
  have hlast : room [s] = 1 := rfl
  rw [hw]
  omega

end Phrase

end Idl
