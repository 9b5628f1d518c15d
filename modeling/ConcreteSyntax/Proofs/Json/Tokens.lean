import ConcreteSyntax.Language.Json
import ConcreteSyntax.Proofs.Grammar.Lexical
import ConcreteSyntax.Proofs.Json.Text

/-! # The tokens of JSON

What each token of the grammar takes in front of the rest of the input, in terms of RFC 8259.

* **Fixed tokens** (`takes_fixed`).  Their text.
* **Blanks** (`takes_whitespace`).  All blanks there are.
* **Strings** (`takes_string`).  Exactly the strings; no rest can make one longer.
* **Numbers** (`takes_number`, `isNumber_of_takes`).  Numbers only, and every number whose rest does not go
  on like one. -/

namespace ConcreteSyntax

open Json

namespace Expr

variable {R : Type} {call : R → List Char → Option Nat} {cs : List Char}

theorem lex_word_none {a : Char} (u : List Char) (h : ∀ ch ∈ cs.head?, ch ≠ a) :
    (word (a :: u)).lex call cs = none := by
  cases cs with
  | nil => rfl
  | cons ch cs =>
      have : a ≠ ch := (h ch rfl).symm
      simp [lex, stripWord, this]

theorem lex_cat_none {e₁ e₂ : Expr R} (h : e₁.lex call cs = none) :
    (cat e₁ e₂).lex call cs = none := by
  rw [lex, h, Option.bind_none]

theorem lex_char_none {k : CharClass} (h : ∀ ch ∈ cs.head?, k.mem ch = false) :
    (char k).lex call cs = none := by
  cases cs with
  | nil => rfl
  | cons ch cs => simp [lex, h ch rfl]

end Expr

namespace JsonRule

open ConcreteSyntax.Expr (Takes)

/-! ### Tokens as lengths -/

/-- How many characters the only rule inside tokens takes, the one for escapes. -/
def innerLength : JsonRule → List Char → Option Nat := fun _ =>
  (definition escape).body.lex fun _ _ => none

theorem lexes : grammar.Lexes (· == escape) innerLength :=
  grammar.lexes_none.silent rfl (by decide) (by decide)

/-- In front of `rest` a token takes `w`. -/
def Takes (r : JsonRule) (w rest : List Char) : Prop :=
  (definition r).body.Takes innerLength w rest

/-- A token does not match here. -/
def Misses (r : JsonRule) (cs : List Char) : Prop :=
  (definition r).body.lex innerLength cs = none

/-- Whether a rule makes a token of characters. -/
def isToken (r : JsonRule) : Bool := (definition r).kind = .atomic

theorem rule_of_isToken {r : JsonRule} (h : isToken r = true) :
    grammar.rule r = ⟨.atomic, (definition r).body⟩ ∧
      (definition r).body.isLexical (· == escape) = true := by
  cases r with
  | EOI | document | value | object | member | array | escape => cases h
  | _ => exact ⟨rfl, by decide⟩

section

variable {r : JsonRule} {c : Context} {s s' : State JsonRule}

theorem reads_token (h : isToken r = true) (hc : c.keepsNodes = true) :
    grammar.Reads (.rule r) c s (some s') ↔
      ∃ w, s.rest = w ++ s'.rest ∧ r.Takes w s'.rest ∧ s' = s.token r w.length :=
  Grammar.reads_atomic_some lexes (rule_of_isToken h).1 (rule_of_isToken h).2 hc

theorem reads_token_none (h : isToken r = true) (hc : c.keepsNodes = true) :
    grammar.Reads (.rule r) c s none ↔ r.Misses s.rest :=
  Grammar.reads_atomic_none lexes (rule_of_isToken h).1 (rule_of_isToken h).2 hc

end

/-! ### Fixed tokens -/

/-- The text of a token that has only one. -/
def fixedText? : JsonRule → Option (List Char)
  | LBRACE => some ['{']
  | RBRACE => some ['}']
  | LBRACK => some ['[']
  | RBRACK => some [']']
  | COLON => some [':']
  | COMMA => some [',']
  | TRUE => some ['t', 'r', 'u', 'e']
  | FALSE => some ['f', 'a', 'l', 's', 'e']
  | NULL => some ['n', 'u', 'l', 'l']
  | _ => none

theorem body_of_fixedText? {r : JsonRule} {u : List Char} (h : r.fixedText? = some u) :
    isToken r = true ∧ (definition r).body = .word u := by
  cases r <;> cases h <;> exact ⟨rfl, rfl⟩

theorem takes_fixed {r : JsonRule} {u w rest : List Char} (h : r.fixedText? = some u) :
    r.Takes w rest ↔ w = u := by
  rw [Takes, (body_of_fixedText? h).2, Expr.takes_word]

theorem misses_fixed {r : JsonRule} {a : Char} {u cs : List Char} (h : r.fixedText? = some (a :: u))
    (hcs : ∀ ch ∈ cs.head?, ch ≠ a) : r.Misses cs := by
  rw [Misses, (body_of_fixedText? h).2, Expr.lex_word_none u hcs]

/-! ### Blanks -/

def blank : Expr JsonRule := Expr.oneOf [" ", "\t", "\r", "\n"]

theorem isClass_blank {call : JsonRule → List Char → Option Nat} : blank.IsClass call isBlank := by
  have hclass : blank.IsClass call fun ch => ch == ' ' || (ch == '\t' || (ch == '\r' || ch == '\n')) :=
    (Expr.isClass_word ' ').alt
      ((Expr.isClass_word '\t').alt ((Expr.isClass_word '\r').alt (Expr.isClass_word '\n')))
  have hblank : (fun ch : Char => ch == ' ' || (ch == '\t' || (ch == '\r' || ch == '\n'))) = isBlank := by
    funext ch
    unfold isBlank
    grind
  rw [← hblank]
  exact hclass

/-- The first character of a text, if there is one, is no blank. -/
def StartsTight (cs : List Char) : Prop := ∀ ch ∈ cs.head?, isBlank ch = false

theorem takes_whitespace {w rest : List Char} :
    WHITESPACE.Takes w rest ↔ w ≠ [] ∧ Blank w ∧ StartsTight rest := by
  have hbody : (definition WHITESPACE).body = .group (.cat blank (.star blank)) := rfl
  rw [Takes, hbody, Expr.takes_group, Expr.takes_cat]
  simp only [Expr.takes_of_class isClass_blank, Expr.takes_star_of_class isClass_blank]
  constructor
  · rintro ⟨_, v, rfl, ⟨ch, hch, rfl⟩, hv, hrest⟩
    exact ⟨List.cons_ne_nil _ _, List.forall_mem_cons.mpr ⟨hch, hv⟩, hrest⟩
  · rintro ⟨hne, hw, hrest⟩
    cases w with
    | nil => exact absurd rfl hne
    | cons ch w =>
        obtain ⟨hch, hw⟩ := List.forall_mem_cons.mp hw
        exact ⟨[ch], w, rfl, ⟨ch, hch, rfl⟩, hw, hrest⟩

theorem misses_whitespace {cs : List Char} (h : StartsTight cs) : WHITESPACE.Misses cs := by
  have hbody : (definition WHITESPACE).body = .group (.cat blank (.star blank)) := rfl
  rw [Misses, hbody]
  exact Expr.lex_cat_none (isClass_blank.lex_eq_none.mpr h)

/-! ### Numbers -/

section Numbers

variable {call : JsonRule → List Char → Option Nat} {w rest : List Char}

/-- The first character of a text, if there is one, is no digit. -/
def StartsNoDigit (cs : List Char) : Prop := ∀ ch ∈ cs.head?, ch.isDigit = false

/-- One or more digits. -/
def digits : Expr JsonRule := .cat .digit (.star .digit)

/-- The digits before the point. -/
def integer : Expr JsonRule := .alt (.word ['0']) (.group (.cat .nonzeroDigit (.star .digit)))

/-- The point and the digits after it. -/
def fraction : Expr JsonRule := .group (.cat (.word ['.']) digits)

/-- The sign of an exponent. -/
def sign : Expr JsonRule := .alt (.word ['+']) (.word ['-'])

def exponent : Expr JsonRule := .group (.cat (.caseless ['e']) (.cat (.opt sign) digits))

theorem body_number : (definition NumberLiteral).body =
    .group (.cat (.opt (.word ['-'])) (.cat integer (.cat (.opt fraction) (.opt exponent)))) := rfl

theorem mem_nonzeroDigit (ch : Char) :
    (CharClass.range '1' '9').mem ch = true ↔ ch.isDigit = true ∧ ch ≠ '0' := by
  have h0 : ch ≠ '0' ↔ ch.toNat ≠ 48 := not_congr Char.toNat_inj.symm
  rw [h0]
  simp only [CharClass.mem, Char.isDigit, Bool.and_eq_true, decide_eq_true_eq, Char.le_def,
    UInt32.le_iff_toNat_le, ge_iff_le]
  change (49 ≤ ch.toNat ∧ ch.toNat ≤ 57) ↔ (48 ≤ ch.toNat ∧ ch.toNat ≤ 57) ∧ _
  omega

theorem takes_digits : digits.Takes call w rest ↔ Digits w ∧ StartsNoDigit rest := by
  rw [digits, Expr.takes_cat]
  constructor
  · rintro ⟨u, v, rfl, hu, hv⟩
    obtain ⟨d, hd, rfl⟩ := Expr.takes_char.mp hu
    obtain ⟨hv, hrest⟩ := (Expr.takes_star_of_class (Expr.isClass_char _)).mp hv
    exact ⟨⟨List.cons_ne_nil d v, List.forall_mem_cons.mpr ⟨hd, hv⟩⟩, hrest⟩
  · rintro ⟨⟨hne, hw⟩, hrest⟩
    cases w with
    | nil => exact absurd rfl hne
    | cons d w =>
        obtain ⟨hd, hw⟩ := List.forall_mem_cons.mp hw
        exact ⟨[d], w, rfl, Expr.takes_char.mpr ⟨d, hd, rfl⟩,
          (Expr.takes_star_of_class (Expr.isClass_char _)).mpr ⟨hw, hrest⟩⟩

theorem isInt_of_takes (h : integer.Takes call w rest) : IsInt w := by
  rcases Expr.takes_alt.mp h with h | ⟨_, h⟩
  · rw [Expr.takes_word.mp h]
    exact .zero
  · obtain ⟨u, v, rfl, hu, hv⟩ := Expr.takes_cat.mp (Expr.takes_group.mp h)
    obtain ⟨d, hd, rfl⟩ := Expr.takes_char.mp hu
    obtain ⟨hv, _⟩ := (Expr.takes_star_of_class (Expr.isClass_char _)).mp hv
    obtain ⟨hd, h0⟩ := (mem_nonzeroDigit d).mp hd
    exact .nonzero hd h0 hv

theorem takes_integer (h : IsInt w) (hrest : StartsNoDigit rest) : integer.Takes call w rest := by
  refine Expr.takes_alt.mpr ?_
  cases h with
  | zero => exact .inl (Expr.takes_word.mpr rfl)
  | @nonzero d ds hd h0 hds =>
      refine .inr ⟨Expr.lex_word_none [] fun ch hch => ?_, ?_⟩
      · cases hch
        exact h0
      · exact Expr.takes_group.mpr (Expr.takes_cat.mpr ⟨[d], ds, rfl,
          Expr.takes_char.mpr ⟨d, (mem_nonzeroDigit d).mpr ⟨hd, h0⟩, rfl⟩,
          (Expr.takes_star_of_class (Expr.isClass_char _)).mpr ⟨hds, hrest⟩⟩)

theorem takes_fraction : fraction.Takes call w rest ↔ IsFrac w ∧ StartsNoDigit rest := by
  rw [fraction, Expr.takes_group, Expr.takes_cat]
  simp only [Expr.takes_word, takes_digits]
  constructor
  · rintro ⟨_, ds, rfl, rfl, hds, hrest⟩
    exact ⟨⟨ds, hds, rfl⟩, hrest⟩
  · rintro ⟨⟨ds, hds, rfl⟩, hrest⟩
    exact ⟨_, ds, rfl, rfl, hds, hrest⟩

theorem toLower_eq_e {ch : Char} : 'e'.toLower = ch.toLower ↔ ch = 'e' ∨ ch = 'E' := by
  constructor
  · intro h
    have h := congrArg Char.toNat h
    unfold Char.toLower at h
    split at h
    next hc => exact absurd hc (by decide)
    next =>
      split at h
      next hc =>
        have hle : ch.val.toNat ≤ 90 := UInt32.le_iff_toNat_le.mp hc.2
        have h : 101 = (ch.val + 32).toNat := h
        rw [UInt32.toNat_add, show (32 : UInt32).toNat = 32 from rfl] at h
        refine .inr (Char.toNat_inj.mp ?_)
        change ch.val.toNat = 69
        omega
      next => exact .inl (Char.toNat_inj.mp h.symm)
  · rintro (rfl | rfl) <;> decide

theorem isClass_caseless_e :
    (Expr.caseless ['e']).IsClass call fun ch => decide ('e'.toLower = ch.toLower) := by
  intro cs
  cases cs with
  | nil => rfl
  | cons ch cs =>
      simp only [Expr.lex, stripCaseless, decide_eq_true_eq]
      split <;> rfl

theorem takes_caseless_e : (Expr.caseless ['e']).Takes call w rest ↔ w = ['e'] ∨ w = ['E'] := by
  rw [Expr.takes_of_class isClass_caseless_e]
  simp only [decide_eq_true_eq, toLower_eq_e]
  constructor
  · rintro ⟨_, rfl | rfl, rfl⟩
    · exact .inl rfl
    · exact .inr rfl
  · rintro (rfl | rfl)
    · exact ⟨'e', .inl rfl, rfl⟩
    · exact ⟨'E', .inr rfl, rfl⟩

theorem lex_caseless_e_none {cs : List Char} (h : ∀ ch ∈ cs.head?, ch ≠ 'e' ∧ ch ≠ 'E') :
    (Expr.caseless ['e']).lex call cs = none := by
  refine isClass_caseless_e.lex_eq_none.mpr fun ch hch => decide_eq_false fun hlower => ?_
  obtain ⟨he, hE⟩ := h ch hch
  exact (toLower_eq_e.mp hlower).elim he hE

theorem isExp_of_takes (h : exponent.Takes call w rest) : IsExp w := by
  obtain ⟨u, r, rfl, hu, h⟩ := Expr.takes_cat.mp (Expr.takes_group.mp h)
  obtain ⟨σ, ds, rfl, hσ, hds⟩ := Expr.takes_cat.mp h
  have hσ : Optional IsSign σ := by
    rcases Expr.takes_opt.mp hσ with hσ | ⟨rfl, _⟩
    · rcases Expr.takes_alt.mp hσ with hσ | ⟨_, hσ⟩
      · exact .inr (.inr (Expr.takes_word.mp hσ))
      · exact .inr (.inl (Expr.takes_word.mp hσ))
    · exact .inl rfl
  rcases takes_caseless_e.mp hu with rfl | rfl
  · exact ⟨'e', σ, ds, .inl rfl, hσ, (takes_digits.mp hds).1, rfl⟩
  · exact ⟨'E', σ, ds, .inr rfl, hσ, (takes_digits.mp hds).1, rfl⟩

theorem ne_of_isDigit {d : Char} (h : d.isDigit = true) : d ≠ '+' ∧ d ≠ '-' ∧ d ≠ '.' := by
  refine ⟨?_, ?_, ?_⟩ <;> (rintro rfl; revert h; decide)

theorem takes_exponent (h : IsExp w) (hrest : StartsNoDigit rest) : exponent.Takes call w rest := by
  obtain ⟨e, σ, ds, he, hσ, hds, rfl⟩ := h
  have hu : (Expr.caseless ['e']).Takes call [e] ((σ ++ ds) ++ rest) := by
    refine takes_caseless_e.mpr ?_
    rcases he with rfl | rfl
    · exact .inl rfl
    · exact .inr rfl
  have hsign : (Expr.opt sign).Takes call σ (ds ++ rest) := by
    refine Expr.takes_opt.mpr ?_
    rcases hσ with rfl | rfl | rfl
    · -- no sign: a digit comes next
      obtain ⟨d, ds, rfl⟩ := List.exists_cons_of_ne_nil hds.1
      have hd := ne_of_isDigit (hds.2 d List.mem_cons_self)
      refine .inr ⟨rfl, ?_⟩
      rw [sign, Expr.lex, Expr.lex_word_none [] (fun ch hch => by cases hch; exact hd.1),
        Expr.lex_word_none [] (fun ch hch => by cases hch; exact hd.2.1)]
      rfl
    · exact .inl (Expr.takes_alt.mpr (.inr ⟨Expr.lex_word_none [] (fun ch hch => by
        cases hch
        decide), Expr.takes_word.mpr rfl⟩))
    · exact .inl (Expr.takes_alt.mpr (.inl (Expr.takes_word.mpr rfl)))
  exact Expr.takes_group.mpr (Expr.takes_cat.mpr ⟨[e], σ ++ ds, rfl, hu,
    Expr.takes_cat.mpr ⟨σ, ds, rfl, hsign, takes_digits.mpr ⟨hds, hrest⟩⟩⟩)

/-- A token for a number takes nothing but numbers. -/
theorem isNumber_of_takes (h : NumberLiteral.Takes w rest) : IsNumber w := by
  rw [Takes, body_number, Expr.takes_group] at h
  obtain ⟨m, r, rfl, hm, h⟩ := Expr.takes_cat.mp h
  obtain ⟨i, r, rfl, hi, h⟩ := Expr.takes_cat.mp h
  obtain ⟨f, x, rfl, hf, hx⟩ := Expr.takes_cat.mp h
  refine ⟨m, i, f, x, ?_, isInt_of_takes hi, ?_, ?_, rfl⟩
  · rcases Expr.takes_opt.mp hm with hm | ⟨rfl, _⟩
    · exact .inr (Expr.takes_word.mp hm)
    · exact .inl rfl
  · rcases Expr.takes_opt.mp hf with hf | ⟨rfl, _⟩
    · exact .inr (takes_fraction.mp hf).1
    · exact .inl rfl
  · rcases Expr.takes_opt.mp hx with hx | ⟨rfl, _⟩
    · exact .inr (isExp_of_takes hx)
    · exact .inl rfl

/-- A text that does not go on like a number. -/
def StopsNumber (cs : List Char) : Prop :=
  ∀ ch ∈ cs.head?, ch.isDigit = false ∧ ch ≠ '.' ∧ ch ≠ 'e' ∧ ch ≠ 'E'

/-- A token for a number takes every number that its rest does not go on. -/
theorem takes_number (h : IsNumber w) (hrest : StopsNumber rest) : NumberLiteral.Takes w rest := by
  obtain ⟨m, i, f, x, hm, hi, hf, hx, rfl⟩ := h
  have hxrest : ∀ ch ∈ (x ++ rest).head?, ch.isDigit = false ∧ ch ≠ '.' := by
    intro ch hch
    rcases hx with rfl | ⟨e, σ, ds, he, _, _, rfl⟩
    · exact ⟨(hrest ch hch).1, (hrest ch hch).2.1⟩
    · cases hch
      rcases he with rfl | rfl <;> decide
  have hfrest : StartsNoDigit (f ++ (x ++ rest)) := by
    intro ch hch
    rcases hf with rfl | ⟨ds, _, rfl⟩
    · exact (hxrest ch hch).1
    · cases hch
      decide
  have hinteger : integer.Takes innerLength i ((f ++ x) ++ rest) := by
    rw [List.append_assoc]
    exact takes_integer hi hfrest
  have hminus : (Expr.opt (.word ['-'])).Takes innerLength m ((i ++ (f ++ x)) ++ rest) := by
    refine Expr.takes_opt.mpr ?_
    rcases hm with rfl | hm
    · refine .inr ⟨rfl, Expr.lex_word_none [] fun ch hch => ?_⟩
      cases hi with
      | zero => cases hch; decide
      | nonzero hd _ _ => cases hch; exact (ne_of_isDigit hd).2.1
    · exact .inl (Expr.takes_word.mpr hm)
  have hfraction : (Expr.opt fraction).Takes innerLength f (x ++ rest) := by
    refine Expr.takes_opt.mpr ?_
    rcases hf with rfl | hf
    · exact .inr ⟨rfl, Expr.lex_cat_none (Expr.lex_word_none [] fun ch hch => (hxrest ch hch).2)⟩
    · exact .inl (takes_fraction.mpr ⟨hf, fun ch hch => (hxrest ch hch).1⟩)
  have hexponent : (Expr.opt exponent).Takes innerLength x rest := by
    refine Expr.takes_opt.mpr ?_
    rcases hx with rfl | hx
    · exact .inr ⟨rfl, Expr.lex_cat_none (lex_caseless_e_none fun ch hch => (hrest ch hch).2.2)⟩
    · exact .inl (takes_exponent hx fun ch hch => (hrest ch hch).1)
  rw [Takes, body_number, Expr.takes_group]
  exact Expr.takes_cat.mpr ⟨m, _, rfl, hminus, Expr.takes_cat.mpr ⟨i, _, rfl, hinteger,
    Expr.takes_cat.mpr ⟨f, x, rfl, hfraction, hexponent⟩⟩⟩

theorem misses_number {cs : List Char} (h : ∀ ch ∈ cs.head?, ch.isDigit = false ∧ ch ≠ '-') :
    NumberLiteral.Misses cs := by
  have hminus : (Expr.opt (.word ['-'])).lex innerLength cs = some 0 := by
    rw [Expr.lex, Expr.lex_word_none [] fun ch hch => (h ch hch).2]
    rfl
  have hinteger : integer.lex innerLength cs = none := by
    rw [integer, Expr.lex, Expr.lex_word_none [] fun ch hch h0 => ?_, Option.none_or]
    · refine Expr.lex_cat_none (Expr.lex_char_none fun ch hch => ?_)
      rw [Bool.eq_false_iff]
      intro hd
      exact Bool.false_ne_true ((h ch hch).1.symm.trans ((mem_nonzeroDigit ch).mp hd).1)
    · subst h0
      cases (h _ hch).1
  rw [Misses, body_number, Expr.lex, Expr.lex, hminus, Option.bind_some, List.drop_zero,
    Expr.lex_cat_none hinteger]
  rfl

end Numbers

/-! ### Strings -/

section Strings

variable {u w rest cs : List Char}

/-- What stands after a backslash. -/
def escapeEnd : Expr JsonRule :=
  .alt (.word ['"']) (.alt (.word ['\\']) (.alt (.word ['/']) (.alt (.word ['b']) (.alt (.word ['f'])
    (.alt (.word ['n']) (.alt (.word ['r']) (.alt (.word ['t'])
      (.group (.cat (.word ['u']) (.cat .hexDigit (.cat .hexDigit (.cat .hexDigit .hexDigit))))))))))))

/-- What no character of a string may be. -/
def special : Expr JsonRule :=
  .alt (.word ['"']) (.alt (.word ['\\']) (.char (.range '\x00' '\x1f')))

/-- One character of a string, or an escape. -/
def stringChar : Expr JsonRule := .alt (.ref escape) (.group (.cat (.notAhead special) .anyChar))

theorem body_string : (definition StringLiteral).body =
    .group (.cat (.word ['"']) (.cat (.star stringChar) (.word ['"']))) := rfl

theorem mem_hexDigit (ch : Char) : CharClass.hexDigit.mem ch = isHexDigit ch := rfl

theorem isChar_of_escapeEnd {call : JsonRule → List Char → Option Nat}
    (h : escapeEnd.Takes call u rest) : IsChar ('\\' :: u) := by
  simp only [escapeEnd, Expr.takes_alt, Expr.takes_word, Expr.takes_group, Expr.takes_cat,
    Expr.hexDigit, Expr.takes_char, mem_hexDigit] at h
  rcases h with rfl | ⟨_, rfl | ⟨_, rfl | ⟨_, rfl | ⟨_, rfl | ⟨_, rfl | ⟨_, rfl | ⟨_, rfl | ⟨_, h⟩⟩⟩⟩⟩⟩⟩⟩
  case inr.inr.inr.inr.inr.inr.inr.inr =>
    obtain ⟨_, _, rfl, rfl, _, _, rfl, ⟨c₁, h₁, rfl⟩, _, _, rfl, ⟨c₂, h₂, rfl⟩, _, _, rfl,
      ⟨c₃, h₃, rfl⟩, c₄, h₄, rfl⟩ := h
    exact .unicode h₁ h₂ h₃ h₄
  all_goals exact .short (by decide)

theorem takes_escapeEnd {call : JsonRule → List Char → Option Nat} (h : IsChar ('\\' :: u)) :
    escapeEnd.Takes call u rest := by
  cases h with
  | unescaped _ _ h => exact absurd rfl h
  | @short c hc =>
      have hcases : ∀ c ∈ shortEscapes, escapeEnd.Takes call [c] rest := by
        simp only [shortEscapes, List.forall_mem_cons]
        exact ⟨rfl, rfl, rfl, rfl, rfl, rfl, rfl, rfl, nofun⟩
      exact hcases c hc
  | @unicode c₁ c₂ c₃ c₄ h₁ h₂ h₃ h₄ =>
      simp [escapeEnd, Expr.Takes, Expr.lex, stripWord, Expr.hexDigit, mem_hexDigit, h₁, h₂, h₃, h₄]

theorem lex_special : special.lex innerLength cs = none ↔
    ∀ ch ∈ cs.head?, 0x20 ≤ ch.toNat ∧ ch ≠ '"' ∧ ch ≠ '\\' := by
  cases cs with
  | nil => exact ⟨fun _ => nofun, fun _ => rfl⟩
  | cons ch cs =>
      have hrange : (CharClass.range '\x00' '\x1f').mem ch = false ↔ 0x20 ≤ ch.toNat := by
        rw [Bool.eq_false_iff]
        simp only [CharClass.mem, Bool.and_eq_true, decide_eq_true_eq, Char.le_def,
          UInt32.le_iff_toNat_le, ne_eq]
        change ¬ (0 ≤ ch.toNat ∧ ch.toNat ≤ 31) ↔ 32 ≤ ch.toNat
        omega
      simp only [special, Expr.lex, stripWord, List.head?_cons, Option.mem_def, Option.some.injEq,
        forall_eq']
      rw [← hrange]
      by_cases h₁ : ch = '"'
      · simp [h₁]
      · by_cases h₂ : ch = '\\'
        · simp [h₂]
        · simp [h₁, h₂, Ne.symm h₁, Ne.symm h₂]

/-- One round inside a string takes one character or escape, whatever follows. -/
theorem takes_stringChar : stringChar.Takes innerLength u rest ↔ IsChar u := by
  rw [stringChar, Expr.takes_alt, Expr.takes_group, Expr.takes_cat]
  simp only [Expr.takes_notAhead, Expr.anyChar, Expr.takes_char, lex_special]
  have hescape : (Expr.ref escape).Takes innerLength u rest ↔
      (Expr.cat (.word ['\\']) escapeEnd).Takes (fun _ _ => none) u rest := Iff.rfl
  rw [hescape, Expr.takes_cat]
  simp only [Expr.takes_word]
  constructor
  · rintro (⟨_, v, rfl, rfl, hv⟩ | ⟨_, _, _, rfl, ⟨rfl, h⟩, ch, _, rfl⟩)
    · exact isChar_of_escapeEnd hv
    · obtain ⟨h₁, h₂, h₃⟩ := h ch rfl
      exact .unescaped h₁ h₂ h₃
  · intro h
    cases u with
    | nil => cases h
    | cons ch u =>
        by_cases hch : ch = '\\'
        · subst hch
          exact .inl ⟨['\\'], u, rfl, rfl, takes_escapeEnd h⟩
        · cases h with
          | unescaped h₁ h₂ h₃ =>
              refine .inr ⟨Expr.lex_cat_none (Expr.lex_word_none [] fun ch' h' => ?_), [], [ch], rfl,
                ⟨rfl, fun ch' h' => ?_⟩, ch, rfl, rfl⟩
              · cases h'
                exact h₃
              · cases h'
                exact ⟨h₁, h₂, h₃⟩
          | short | unicode => exact absurd rfl hch

theorem lex_stringChar_quote : stringChar.lex innerLength ('"' :: rest) = none := rfl

theorem takes_star_stringChar : (Expr.star stringChar).Takes innerLength w rest ↔
    w = [] ∧ stringChar.lex innerLength rest = none ∨
      ∃ u v, w = u ++ v ∧ IsChar u ∧ (Expr.star stringChar).Takes innerLength v rest := by
  rw [Expr.takes_star (fun _ _ => Expr.lex_pos lexes (by decide))
    (fun _ _ => Expr.lex_le lexes (by decide))]
  simp only [takes_stringChar]

/-- A token for a string takes exactly the strings. -/
theorem takes_string : StringLiteral.Takes w rest ↔ IsString w := by
  rw [Takes, body_string, Expr.takes_group, Expr.takes_cat]
  simp only [Expr.takes_cat, Expr.takes_word]
  constructor
  · rintro ⟨_, _, rfl, rfl, v, _, rfl, hv, rfl⟩
    -- the rounds, by the length of what they take
    have hrounds : ∀ (n : Nat) (v : List Char), v.length ≤ n →
        (Expr.star stringChar).Takes innerLength v (['"'] ++ rest) →
        ∃ us : List (List Char), (∀ u ∈ us, IsChar u) ∧ v = us.flatten := by
      intro n
      induction n with
      | zero =>
          intro v hv _
          obtain rfl := List.eq_nil_of_length_eq_zero (Nat.le_zero.mp hv)
          exact ⟨[], nofun, rfl⟩
      | succ n ih =>
          intro v hn hv
          rcases takes_star_stringChar.mp hv with ⟨rfl, _⟩ | ⟨u, v, rfl, hu, hv⟩
          · exact ⟨[], nofun, rfl⟩
          · have hpos := List.length_pos_iff.mpr hu.ne_nil
            rw [List.length_append] at hn
            obtain ⟨us, hus, rfl⟩ := ih v (by omega) hv
            exact ⟨u :: us, List.forall_mem_cons.mpr ⟨hu, hus⟩, rfl⟩
    obtain ⟨us, hus, rfl⟩ := hrounds v.length v (Nat.le_refl _) hv
    exact ⟨us, hus, rfl⟩
  · rintro ⟨us, hus, rfl⟩
    refine ⟨['"'], us.flatten ++ ['"'], rfl, rfl, us.flatten, ['"'], rfl, ?_, rfl⟩
    induction us with
    | nil => exact takes_star_stringChar.mpr (.inl ⟨rfl, lex_stringChar_quote⟩)
    | cons u us ih =>
        obtain ⟨hu, hus⟩ := List.forall_mem_cons.mp hus
        exact takes_star_stringChar.mpr (.inr ⟨u, us.flatten, rfl, hu, ih hus⟩)

theorem misses_string (h : ∀ ch ∈ cs.head?, ch ≠ '"') : StringLiteral.Misses cs := by
  rw [Misses, body_string]
  exact Expr.lex_cat_none (Expr.lex_word_none [] h)

end Strings

end JsonRule

end ConcreteSyntax
