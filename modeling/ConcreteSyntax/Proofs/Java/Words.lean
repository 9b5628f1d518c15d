import ConcreteSyntax.Proofs.Grammar.Lexical
import ConcreteSyntax.Proofs.Tokens

/-! # Words of Java

Keywords, the literals `true`, `false` and `null`, and identifiers are words over the same characters.  There is
no separate scan for them: each terminal looks at the characters behind it, and an identifier first makes
sure that no reserved word stands in its place.

* **Reserved words** (`JavaRule.reserved`).  What is no identifier, with the terminal that reads it.
* **Guards** (`JavaRule.reads_guarded`).  A terminal for a reserved word reads it exactly where no longer word
  begins with it.
* **Words** (`Language.word_parseTree`).  A word goes on as far as it can, and it is an identifier exactly if
  it is not reserved. -/

namespace ConcreteSyntax

open Grammar (reads_group reads_ref reads_notAhead reads_silent reads_named reads_alt
  reads_cat_closed_some reads_lex_some reads_lex_none)

theorem Grammar.reads_none_of_choice {R : Type} {g : Grammar R} {b : Bool} {c : Context} {s : State R} :
    ∀ {es : List (Expr R)}, g.Reads (.part b (.choice es)) c s none →
      ∀ e ∈ es, g.Reads (.part b e) c s none
  | [], _, _, he => absurd he List.not_mem_nil
  | [_], h, _, he => List.mem_singleton.mp he ▸ h
  | e₁ :: e₂ :: es, h, e, he => by
      rcases reads_alt.mp h with ⟨_, _, hnone⟩ | ⟨h₁, h₂⟩
      · cases hnone
      · rcases List.mem_cons.mp he with rfl | he
        · exact h₁
        · exact reads_none_of_choice h₂ e he

namespace JavaRule

/-! ### Reserved words -/

/-- Whether an identifier can begin with a character. -/
def isIdentStart (ch : Char) : Bool :=
  CharClass.asciiLetter.mem ch || (ch == '_' || (ch == '$' || CharClass.letter.mem ch))

/-- Whether an identifier can go on with a character. -/
def isIdentPart (ch : Char) : Bool :=
  isIdentStart ch || ((CharClass.range '0' '9').mem ch || CharClass.decimalNumber.mem ch)

/-- No identifier goes on with this text. -/
def EndsWord (cs : List Char) : Prop := ∀ ch ∈ cs.head?, isIdentPart ch = false

/-- The fifty keywords, each with its terminal. -/
def keywords : List (JavaRule × String) :=
  [(ABSTRACT, "abstract"), (ASSERT, "assert"), (BOOLEAN, "boolean"), (BREAK, "break"), (BYTE, "byte"),
   (CASE, "case"), (CATCH, "catch"), (CHAR, "char"), (CLASS, "class"), (CONST, "const"),
   (CONTINUE, "continue"), (DEFAULT, "default"), (DO, "do"), (DOUBLE, "double"), (ELSE, "else"),
   (ENUM, "enum"), (EXTENDS, "extends"), (FINAL, "final"), (FINALLY, "finally"), (FLOAT, "float"),
   (FOR, "for"), (GOTO, "goto"), (IF, "if"), (IMPLEMENTS, "implements"), (IMPORT, "import"),
   (INSTANCEOF, "instanceof"), (INT, "int"), (INTERFACE, "interface"), (LONG, "long"),
   (NATIVE, "native"), (NEW, "new"), (PACKAGE, "package"), (PRIVATE, "private"),
   (PROTECTED, "protected"), (PUBLIC, "public"), (RETURN, "return"), (SHORT, "short"),
   (STATIC, "static"), (STRICTFP, "strictfp"), (SUPER, "super"), (SWITCH, "switch"),
   (SYNCHRONIZED, "synchronized"), (THIS, "this"), (THROW, "throw"), (THROWS, "throws"),
   (TRANSIENT, "transient"), (TRY, "try"), (VOID, "void"), (VOLATILE, "volatile"), (WHILE, "while")]

/-- All words that are no identifiers, each with its terminal. -/
def reserved : List (JavaRule × String) :=
  keywords ++ [(BooleanLiteral, "true"), (BooleanLiteral, "false"), (NullLiteral, "null")]

/-! ### Words as lengths -/

/-- How many characters the silent rules take of which words are made. -/
def wordLength : JavaRule → List Char → Option Nat
  | identStart, cs => (definition identStart).body.lex (fun _ _ => none) cs
  | identPart, cs => (definition identPart).body.lex
      (fun _ => (definition identStart).body.lex fun _ _ => none) cs
  | _, _ => none

/-- The rules of which words are made. -/
def wordRules : List JavaRule := [identStart, identPart]

theorem lexes_words : grammar.Lexes wordRules.contains wordLength := by
  have hstart := grammar.lexes_none.silent (r := identStart) rfl (by decide) (by decide)
  have hpart := hstart.silent (r := identPart) rfl (by decide) (by decide)
  refine .of_forall fun r hr => ?_
  simp only [wordRules, List.contains_iff_mem, List.mem_cons, List.not_mem_nil, or_false] at hr
  rcases hr with rfl | rfl
  · exact ⟨_, _, hstart, rfl, rfl⟩
  · exact ⟨_, _, hpart, rfl, rfl⟩

theorem isClass_identStart : (Expr.ref identStart).IsClass wordLength isIdentStart :=
  (Expr.isClass_char .asciiLetter).alt ((Expr.isClass_word '_').alt
    ((Expr.isClass_word '$').alt (Expr.isClass_char .letter)))

theorem isClass_identPart : (Expr.ref identPart).IsClass wordLength isIdentPart := by
  have hstart : (Expr.ref identStart).IsClass (fun _ => (definition identStart).body.lex fun _ _ => none)
      isIdentStart := isClass_identStart
  exact hstart.alt ((Expr.isClass_char (.range '0' '9')).alt (Expr.isClass_char .decimalNumber))

/-! ### Guards -/

/-- A terminal for words that are not the start of a longer one. -/
def guarded (e : Expr JavaRule) : Rule JavaRule := .atomic (.group (.cat e (.notAhead identPart)))

section Readings

variable {b : Bool} {c : Context} {s s' : State JavaRule} {e : Expr JavaRule}

/-- A guarded expression reads what it takes, where no longer word begins with it. -/
theorem reads_guarded (hc : c.atomicity ≠ .free) (he : e.isLexical wordRules.contains = true) :
    grammar.Reads (.part b (guarded e).body) c s (some s') ↔
      ∃ w, s.rest = w ++ s'.rest ∧ e.Takes wordLength w s'.rest ∧ EndsWord s'.rest ∧
        s' = s.jump w.length := by
  have hguard : ∀ {s₁ s₂ : State JavaRule}, grammar.Reads (.part b (.notAhead identPart)) c s₁ (some s₂) ↔
      EndsWord s₁.rest ∧ s₂ = s₁ := by
    intro s₁ s₂
    have hnone := reads_lex_none lexes_words (e := identPart) rfl (b := b)
      (c := { c with lookahead := c.lookahead.negate }) hc (s := s₁)
    rw [reads_notAhead, hnone, isClass_identPart.lex_eq_none]
    simp [EndsWord]
  refine (reads_group.trans (reads_cat_closed_some hc)).trans ?_
  constructor
  · rintro ⟨s₁, h₁, h₂⟩
    obtain ⟨hends, rfl⟩ := hguard.mp h₂
    obtain ⟨w, hw, htakes, hjump⟩ := (reads_lex_some lexes_words he hc).mp h₁
    exact ⟨w, hw, htakes, hends, hjump⟩
  · rintro ⟨w, hw, htakes, hends, hjump⟩
    exact ⟨s', (reads_lex_some lexes_words he hc).mpr ⟨w, hw, htakes, hjump⟩, hguard.mpr ⟨hends, rfl⟩⟩

end Readings

/-- The words that have a terminal of their own. -/
def single : List (JavaRule × String) := (NullLiteral, "null") :: keywords

theorem rule_of_mem_single : ∀ p ∈ single, grammar.rule p.1 = guarded (.lit p.2) := by
  simp only [single, keywords, List.forall_mem_cons]
  repeat' apply And.intro
  case right => exact nofun
  all_goals rfl

theorem eq_of_mem_single : ∀ p ∈ single, ∀ q ∈ reserved, q.1 = p.1 → q = p := by decide +kernel

theorem boolean_of_mem_reserved : ∀ q ∈ reserved, q.1 = BooleanLiteral → q.2 = "true" ∨ q.2 = "false" := by
  decide +kernel

theorem takes_boolean {w rest : List Char} : (Expr.oneOf ["true", "false"]).Takes wordLength w rest ↔
    w = "true".toList ∨ w = "false".toList := by
  have htrue : (Expr.lit "true").Takes wordLength w rest ↔ w = "true".toList := Expr.takes_word
  have hfalse : (Expr.lit "false").Takes wordLength w rest ↔ w = "false".toList := Expr.takes_word
  refine Expr.takes_alt.trans ?_
  constructor
  · rintro (h | ⟨_, h⟩)
    · exact .inl (htrue.mp h)
    · exact .inr (hfalse.mp h)
  · rintro (h | rfl)
    · exact .inl (htrue.mpr h)
    · exact .inr ⟨rfl, hfalse.mpr rfl⟩

theorem exists_guard {r : JavaRule} {w : String} (h : (r, w) ∈ reserved) :
    ∃ e, grammar.rule r = guarded e ∧ e.isLexical wordRules.contains = true ∧
      ∀ u rest, e.Takes wordLength u rest ↔ (r, String.ofList u) ∈ reserved := by
  have hsplit : ∀ q ∈ reserved, q ∈ single ∨ q.1 = BooleanLiteral := by decide +kernel
  rcases hsplit _ h with hsingle | hboolean
  · refine ⟨.lit w, rule_of_mem_single _ hsingle, rfl, fun u rest => Expr.takes_word.trans ?_⟩
    constructor
    · rintro rfl
      rwa [String.ofList_toList]
    · intro hu
      have heq : String.ofList u = w := congrArg Prod.snd (eq_of_mem_single _ hsingle _ hu rfl)
      rw [← heq, String.toList_ofList]
  · obtain rfl : r = BooleanLiteral := hboolean
    refine ⟨.oneOf ["true", "false"], rfl, rfl, fun u rest => takes_boolean.trans ?_⟩
    constructor
    · rintro (rfl | rfl)
      · rw [String.ofList_toList]
        decide +kernel
      · rw [String.ofList_toList]
        decide +kernel
    · intro hu
      rcases boolean_of_mem_reserved _ hu rfl with heq | heq
      · left
        rw [← heq, String.toList_ofList]
      · right
        rw [← heq, String.toList_ofList]

theorem exists_reads_reserved {c : Context} {s : State JavaRule} {r : JavaRule} {w : String}
    (hw : (r, w) ∈ reserved) {rest : List Char} (hrest : s.rest = w.toList ++ rest)
    (hends : EndsWord rest) : ∃ s', grammar.Reads (.rule r) c s (some s') := by
  obtain ⟨e, hrule, he, htakes⟩ := exists_guard hw
  let s₀ : State JavaRule := { s with nodes := [] }
  have hjump : (s₀.jump w.toList.length).rest = rest := by
    rw [State.rest_jump, show s₀.rest = _ from hrest, List.drop_left]
  have hread : grammar.Reads (.part false (guarded e).body) (RuleKind.atomic.inner c) s₀
      (some (s₀.jump w.toList.length)) := by
    refine (reads_guarded (c := RuleKind.atomic.inner c) nofun he).mpr ⟨w.toList, ?_, (htakes _ _).mpr ?_, ?_, rfl⟩
    · rw [hjump]
      exact hrest
    · rwa [String.ofList_toList]
    · rwa [hjump]
  exact ⟨_, .named_some hrule nofun hread⟩

/-! ### Identifiers -/

/-- The terminals of reserved words, in the order in which they are tried. -/
def reservedRules : List JavaRule := keywords.map Prod.fst ++ [BooleanLiteral, NullLiteral]

theorem rule_reservedWord : grammar.rule reservedWord = ⟨.silent, .anyOf reservedRules⟩ := rfl

theorem mem_reservedRules : ∀ p ∈ reserved, p.1 ∈ reservedRules := by decide +kernel

/-- Where no reserved word is found, none stands there as a whole. -/
theorem not_endsWord_of_reads {b : Bool} {c : Context} {s : State JavaRule}
    (h : grammar.Reads (.part b reservedWord) c s none) {r : JavaRule} {w : String}
    (hw : (r, w) ∈ reserved) {rest : List Char} (hrest : s.rest = w.toList ++ rest) : ¬ EndsWord rest := by
  intro hends
  have hnone : grammar.Reads (.part true (.ref r)) c s none := by
    refine Grammar.reads_none_of_choice ((reads_silent rule_reservedWord).mp (reads_ref.mp h)) _ ?_
    exact List.mem_map_of_mem (mem_reservedRules _ hw)
  obtain ⟨s', hread⟩ := exists_reads_reserved hw hrest hends
  cases (reads_ref.mp hnone).unique hread

/-- An identifier goes on as far as it can, and it is not reserved. -/
theorem identifier_of_reads {b : Bool} {c : Context} {s s' : State JavaRule} (hc : c.atomicity ≠ .free)
    (h : grammar.Reads (.part b (definition Identifier).body) c s (some s')) :
    EndsWord s'.rest ∧ ∀ w : String, s.rest = w.toList ++ s'.rest → ∀ r, (r, w) ∉ reserved := by
  obtain ⟨s₁, h₁, h⟩ := (reads_cat_closed_some hc).mp (reads_group.mp h)
  rcases reads_notAhead.mp h₁ with ⟨_, _, h₁⟩ | ⟨hguard, h₁⟩
  · cases h₁
  cases h₁
  have hends : EndsWord s'.rest := by
    obtain ⟨_, _, htakes, _⟩ := (reads_lex_some lexes_words rfl hc).mp h
    obtain ⟨_, _, _, _, hpart⟩ := Expr.takes_cat.mp htakes
    exact ((Expr.takes_star_of_class isClass_identPart).mp hpart).2
  exact ⟨hends, fun w hw r hr => not_endsWord_of_reads hguard hr hw hends⟩

end JavaRule

namespace Language

open JavaRule (EndsWord reserved)

/-- **Words are read as a whole.**  A keyword, a literal `true`, `false` or `null` and an identifier are not
followed by a character that a word could go on with.  A terminal of reserved words reads one of these, and
an identifier is none of them. -/
theorem word_parseTree (origin source : String) (limit : Option Nat) (t : Tree java.Rules)
    (h : java.parseTree origin source limit = .ok t) (before after : List (Token java.Rules))
    (tok : Token java.Rules) (ht : t.tokens = before ++ tok :: after)
    (hk : tok.kind = JavaRule.Identifier ∨ ∃ w, (tok.kind, w) ∈ reserved) :
    ∃ rest, source.toList = (String.join (before.map Token.text)).toList ++ (tok.text.toList ++ rest) ∧
      EndsWord rest ∧ (tok.kind = JavaRule.Identifier → ∀ r, (r, tok.text) ∉ reserved) ∧
      (tok.kind ≠ JavaRule.Identifier → (tok.kind, tok.text) ∈ reserved) := by
  obtain ⟨k, e, c, s, s', hrule, _, hread, hbefore, htext, _⟩ := exists_reads_of_token h ht
  refine ⟨s'.rest, by rw [hbefore, htext], ?_⟩
  rcases hk with hk | ⟨w, hw⟩
  · rw [hk] at hrule
    obtain rfl : RuleKind.atomic = k := congrArg Rule.kind hrule
    obtain rfl : (JavaRule.definition .Identifier).body = e := congrArg Rule.body hrule
    obtain ⟨hends, hnot⟩ := JavaRule.identifier_of_reads (c := RuleKind.atomic.inner c) nofun hread
    exact ⟨hends, fun _ => hnot _ htext, fun hne => absurd hk hne⟩
  · obtain ⟨e', hrule', he', htakes⟩ := JavaRule.exists_guard hw
    obtain rfl : RuleKind.atomic = k := congrArg Rule.kind (hrule'.symm.trans hrule)
    obtain rfl : (JavaRule.guarded e').body = e := congrArg Rule.body (hrule'.symm.trans hrule)
    obtain ⟨u, hu, hut, hends, _⟩ :=
      (JavaRule.reads_guarded (c := RuleKind.atomic.inner c) nofun he').mp hread
    obtain rfl : tok.text.toList = u := List.append_cancel_right (htext.symm.trans hu)
    have hmem := (htakes _ _).mp hut
    rw [String.ofList_toList] at hmem
    refine ⟨hends, fun hident => ?_, fun _ => hmem⟩
    have hnone : ∀ p ∈ reserved, p.1 ≠ JavaRule.Identifier := by decide +kernel
    exact absurd hident (hnone _ hmem)

theorem word_parseTree_class : ∃ (t : Tree java.Rules) (before after : List (Token java.Rules))
    (tok : Token java.Rules), java.parseTree "A.java" "class classé\x7b\x7d" none = .ok t ∧
      t.tokens = before ++ tok :: after ∧ tok.kind = JavaRule.Identifier ∧ tok.text = "classé" ∧
      ∃ rest, "class classé\x7b\x7d".toList =
          (String.join (before.map Token.text)).toList ++ (tok.text.toList ++ rest) ∧
        EndsWord rest ∧ (tok.kind = JavaRule.Identifier → ∀ r, (r, tok.text) ∉ reserved) ∧
        (tok.kind ≠ JavaRule.Identifier → (tok.kind, tok.text) ∈ reserved) := by
  obtain ⟨t, before, after, tok, ht, htoks, hk, htext, _⟩ := exists_token_of_words java "A.java"
    "class classé\x7b\x7d" none [(JavaRule.CLASS, "class"), (JavaRule.WHITESPACE, " ")]
    (JavaRule.Identifier, "classé") [(JavaRule.LBRACE, "\x7b"), (JavaRule.RBRACE, "\x7d"), (JavaRule.EOI, "")]
    (by decide +kernel)
  exact ⟨t, before, after, tok, ht, htoks, hk, htext,
    word_parseTree _ _ _ t ht before after tok htoks (.inl hk)⟩

end Language

end ConcreteSyntax
