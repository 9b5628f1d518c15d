import ConcreteSyntax.Proofs.Grammar.Derivation
import ConcreteSyntax.Proofs.Lossless

/-! # The layers of the languages

Finite checks of the rule tables, one language after another: which silent rules stand inside terminals
only (`lexical`), how rules shift the marks (`shifts`), and that rules refer to each other in layers
(`layered`).  The only terminals whose texts take an argument of their own (`loose`) are the end of the
input and the `Heredoc` of HCL. -/

namespace ConcreteSyntax

/-! ### Checking rules

Terminals are told by the first bytes of their names here: for them a name need not be decoded. -/

/-- Whether the name of a rule starts with the byte of an ASCII capital. -/
def Vocabulary.capital {R : Type} (v : Vocabulary R) (r : R) : Bool :=
  match (v.symbolicName r).toByteArray.data.toList with
  | [] => false
  | b :: _ => 65 ≤ b.toNat && b.toNat ≤ 90

/-- The first byte of a character is that of an ASCII capital if the character is one. -/
theorem exists_firstByte (c : Char) : ∃ b bs, String.utf8EncodeChar c = b :: bs ∧
    (65 ≤ b.toNat ∧ b.toNat ≤ 90 ↔ 'A' ≤ c ∧ c ≤ 'Z') := by
  have hA : 'A' ≤ c ↔ 65 ≤ c.val.toNat := Iff.rfl
  have hZ : c ≤ 'Z' ↔ c.val.toNat ≤ 90 := Iff.rfl
  rw [String.utf8EncodeChar, hA, hZ]
  split
  · exact ⟨_, _, rfl, by rw [UInt8.toNat_ofNat']; omega⟩
  · split
    · exact ⟨_, _, rfl, by rw [UInt8.toNat_ofNat']; omega⟩
    · split
      · exact ⟨_, _, rfl, by rw [UInt8.toNat_ofNat']; omega⟩
      · exact ⟨_, _, rfl, by rw [UInt8.toNat_ofNat']; omega⟩

/-- Terminals can be told by the first bytes of their names. -/
theorem Vocabulary.isTerminal_eq_capital {R : Type} (v : Vocabulary R) :
    v.isTerminal = v.capital := by
  funext r
  have hbytes : (v.symbolicName r).toByteArray.data.toList =
      (v.symbolicName r).toList.flatMap String.utf8EncodeChar := by
    rw [← String.ofList_toList (s := v.symbolicName r), String.toByteArray_ofList, List.utf8Encode,
      List.data_toByteArray, String.toList_ofList]
  rw [Vocabulary.isTerminal, Vocabulary.capital, hbytes]
  cases (v.symbolicName r).toList with
  | nil => rfl
  | cons c cs =>
      obtain ⟨b, bs, hc, hb⟩ := exists_firstByte c
      rw [List.flatMap_cons, hc, Bool.eq_iff_iff]
      simpa using hb.symm

theorem forall_of_all {R : Type} {rules : List R} (hm : ∀ r, r ∈ rules) {p : R → Bool}
    (h : rules.all p = true) (r : R) : p r = true := List.all_eq_true.mp h r (hm r)

/-- Whether the listed rules lie in layers and shift the marks as given. -/
def Grammar.checks {R : Type} (g : Grammar R) (terminal lexical blank loose : R → Bool)
    (known : R → Shift) : Bool :=
  g.rules.all fun r => (!blank r || (!lexical r && terminal r)) &&
    g.sorts terminal lexical blank loose r && (g.rule r).body.shift? known = some (known r) &&
    ((g.rule r).kind = .silent || known r = .still)

section Checks

variable {R : Type} {g : Grammar R} {v : Vocabulary R} {lexical blank loose : R → Bool}
  {known : R → Shift}

theorem Grammar.layered_of_checks (hm : ∀ r, r ∈ g.rules) (ht : g.trivia.refers false blank = true)
    (h : g.checks v.capital lexical blank loose known = true) :
    g.Layered v lexical blank loose where
  trivia := ht
  apart r hr := by
    have hc := forall_of_all hm h r
    simp only [hr, Bool.and_eq_true, Bool.not_true, Bool.false_or] at hc
    rw [v.isTerminal_eq_capital]
    simpa using hc.1.1.1
  sorts r := by
    have hc := forall_of_all hm h r
    simp only [Bool.and_eq_true] at hc
    rw [v.isTerminal_eq_capital]
    exact hc.1.1.2

theorem Grammar.shifts_of_checks {terminal : R → Bool} (hm : ∀ r, r ∈ g.rules)
    (ht : g.trivia.shift? known = some .still)
    (h : g.checks terminal lexical blank loose known = true) : g.Shifts known := by
  have hall : ∀ r, (g.rule r).body.shift? known = some (known r) ∧
      ((g.rule r).kind = .silent ∨ known r = .still) := by
    intro r
    have hc := forall_of_all hm h r
    simp only [Bool.and_eq_true, Bool.or_eq_true, decide_eq_true_eq] at hc
    exact ⟨hc.1.2, hc.2⟩
  exact ⟨ht, fun r => (hall r).1, fun r hr => (hall r).2.resolve_left hr⟩

end Checks

namespace JsonRule

/-- The silent rules inside terminals. -/
def lexical : List JsonRule := [escape]

/-- The terminals for trivia. -/
def blanks : List JsonRule := [WHITESPACE]

/-- The terminals whose texts are looked at one by one. -/
def loose : List JsonRule := [EOI]

theorem checked : grammar.checks (Vocabulary.capital ⟨name⟩) lexical.contains blanks.contains
    loose.contains (fun _ => .still) = true := by decide +kernel

theorem shifts : grammar.Shifts fun _ => .still := Grammar.shifts_of_checks mem_all rfl checked

theorem layered : grammar.Layered ⟨name⟩ lexical.contains blanks.contains loose.contains :=
  Grammar.layered_of_checks mem_all rfl checked

end JsonRule

namespace HclRule

def lexical : List HclRule :=
  [identStart, identPart, quotedTemplate, templateEscape, templateSeq, templateInner, heredocTag,
   heredocLine, lineBreak, nested]

def blanks : List HclRule := [WHITESPACE, COMMENT]

/-- The terminals whose texts are looked at one by one. -/
def loose : List HclRule := [EOI, Heredoc]

/-- Opening a bracket adds a mark, closing it takes one away. -/
def shift : HclRule → Shift
  | nestOpen => ⟨0, 1⟩
  | nestClose => ⟨1, 0⟩
  | _ => .still

theorem checked : grammar.checks (Vocabulary.capital ⟨name⟩) lexical.contains blanks.contains
    loose.contains shift = true := by decide +kernel

theorem shifts : grammar.Shifts shift := Grammar.shifts_of_checks mem_all rfl checked

theorem layered : grammar.Layered ⟨name⟩ lexical.contains blanks.contains loose.contains :=
  Grammar.layered_of_checks mem_all rfl checked

end HclRule

namespace JavaRule

def lexical : List JavaRule :=
  [digits, exponent, floatSuffix, escapeSequence, identStart, identPart]

def blanks : List JavaRule := [WHITESPACE, COMMENT]

/-- The terminals whose texts are looked at one by one. -/
def loose : List JavaRule := [EOI]

theorem checked : grammar.checks (Vocabulary.capital ⟨name⟩) lexical.contains blanks.contains
    loose.contains (fun _ => .still) = true := by decide +kernel

theorem shifts : grammar.Shifts fun _ => .still := Grammar.shifts_of_checks mem_all rfl checked

theorem layered : grammar.Layered ⟨name⟩ lexical.contains blanks.contains loose.contains :=
  Grammar.layered_of_checks mem_all rfl checked

end JavaRule

namespace Language

/-- The silent rules inside terminals. -/
def lexical : (l : Language) → List l.Rules
  | java => JavaRule.lexical
  | json => JsonRule.lexical
  | hcl => HclRule.lexical

/-- The terminals for trivia. -/
def blanks : (l : Language) → List l.Rules
  | java => JavaRule.blanks
  | json => JsonRule.blanks
  | hcl => HclRule.blanks

/-- The terminals whose texts are looked at one by one. -/
def loose : (l : Language) → List l.Rules
  | java => JavaRule.loose
  | json => JsonRule.loose
  | hcl => HclRule.loose

theorem layered : ∀ l : Language,
    l.grammar.Layered l.vocabulary l.lexical.contains l.blanks.contains l.loose.contains
  | java => JavaRule.layered
  | json => JsonRule.layered
  | hcl => HclRule.layered

/-- In every language a rule that leaves a node gives back the marks it found. -/
theorem exists_shifts : ∀ l : Language, ∃ known, l.grammar.Shifts known
  | java => ⟨_, JavaRule.shifts⟩
  | json => ⟨_, JsonRule.shifts⟩
  | hcl => ⟨_, HclRule.shifts⟩

end Language

end ConcreteSyntax
