/-! # JSON texts

The grammar of RFC 8259, over characters.  `Json` is a derivation without its blanks: literals keep
their characters, arrays and objects their parts in order.  `j.Spells w` says that `w` is a value of the
grammar with derivation `j`, `j.IsText w` that `w` is a JSON text.

Structural characters have blanks on both sides (`Mark`), so a value may begin and end with blanks.
Arrays and objects are lists between two structural characters (`Listed`), of values or of members.

`Json.Spells.induct` is the induction over derivations: what is true of literals, and of lists whose
parts it is true of, is true of all values. -/

namespace ConcreteSyntax

/-- A value of a JSON text. -/
inductive Json where
  | null
  | bool (b : Bool)
  | number (lexeme : List Char)
  | string (lexeme : List Char)
  | array (elements : List Json)
  | object (members : List (List Char × Json))

namespace Json

/-- Space, horizontal tab, line feed and carriage return. -/
def isBlank (c : Char) : Bool := c = ' ' || c = '\t' || c = '\n' || c = '\r'

/-- `ws`. -/
def Blank (w : List Char) : Prop := ∀ c ∈ w, isBlank c = true

instance (w : List Char) : Decidable (Blank w) :=
  decidable_of_iff (w.all isBlank = true) List.all_eq_true

theorem blank_append {b b' : List Char} (hb : Blank b) (hb' : Blank b') : Blank (b ++ b') :=
  List.forall_mem_append.mpr ⟨hb, hb'⟩

/-- A structural character, with blanks around it. -/
def Mark (c : Char) (w : List Char) : Prop := ∃ a b, Blank a ∧ Blank b ∧ w = a ++ c :: b

/-- What may be left out. -/
def Optional (P : List Char → Prop) (w : List Char) : Prop := w = [] ∨ P w

/-! ### Numbers -/

/-- `1*DIGIT`. -/
def Digits (w : List Char) : Prop := w ≠ [] ∧ ∀ d ∈ w, d.isDigit = true

/-- `int = zero / ( digit1-9 *DIGIT )`. -/
inductive IsInt : List Char → Prop
  | zero : IsInt ['0']
  | nonzero {d ds} : d.isDigit = true → d ≠ '0' → (∀ x ∈ ds, x.isDigit = true) → IsInt (d :: ds)

/-- `frac = decimal-point 1*DIGIT`. -/
def IsFrac (w : List Char) : Prop := ∃ ds, Digits ds ∧ w = '.' :: ds

/-- `minus / plus`. -/
def IsSign (w : List Char) : Prop := w = ['-'] ∨ w = ['+']

/-- `exp = e [ minus / plus ] 1*DIGIT`. -/
def IsExp (w : List Char) : Prop :=
  ∃ e sign ds, (e = 'e' ∨ e = 'E') ∧ Optional IsSign sign ∧ Digits ds ∧ w = e :: (sign ++ ds)

/-- `number = [ minus ] int [ frac ] [ exp ]`. -/
def IsNumber (w : List Char) : Prop :=
  ∃ m i f x, Optional (· = ['-']) m ∧ IsInt i ∧ Optional IsFrac f ∧ Optional IsExp x ∧
    w = m ++ (i ++ (f ++ x))

/-! ### Strings -/

/-- `HEXDIG`. -/
def isHexDigit (c : Char) : Bool :=
  c.isDigit || ('a' ≤ c && c ≤ 'f') || ('A' ≤ c && c ≤ 'F')

/-- The characters that stand for one character after a backslash. -/
def shortEscapes : List Char := ['"', '\\', '/', 'b', 'f', 'n', 'r', 't']

/-- One character of a string, or an escape. -/
inductive IsChar : List Char → Prop
  | unescaped {c : Char} : 0x20 ≤ c.toNat → c ≠ '"' → c ≠ '\\' → IsChar [c]
  | short {c : Char} : c ∈ shortEscapes → IsChar ['\\', c]
  | unicode {c₁ c₂ c₃ c₄ : Char} : isHexDigit c₁ = true → isHexDigit c₂ = true →
      isHexDigit c₃ = true → isHexDigit c₄ = true → IsChar ['\\', 'u', c₁, c₂, c₃, c₄]

theorem IsChar.ne_nil {u : List Char} (h : IsChar u) : u ≠ [] := by
  cases h <;> exact List.cons_ne_nil _ _

/-- `string = quotation-mark *char quotation-mark`. -/
def IsString (w : List Char) : Prop :=
  ∃ us : List (List Char), (∀ u ∈ us, IsChar u) ∧ w = '"' :: (us.flatten ++ ['"'])

/-! ### Values -/

/-- One or more parts with commas between them. -/
inductive Items {α : Type} (Q : α → List Char → Prop) : List α → List Char → Prop
  | one {a w} : Q a w → Items Q [a] w
  | more {a w u as m} : Q a w → Mark ',' u → Items Q as m → Items Q (a :: as) (w ++ (u ++ m))

/-- Parts between two structural characters. -/
inductive Listed {α : Type} (l r : Char) (Q : α → List Char → Prop) : List α → List Char → Prop
  | empty {u v} : Mark l u → Mark r v → Listed l r Q [] (u ++ v)
  | items {u as m v} : Mark l u → Items Q as m → Mark r v → Listed l r Q as (u ++ (m ++ v))

/-- `member = string name-separator value`. -/
inductive Member (Q : Json → List Char → Prop) : List Char × Json → List Char → Prop
  | mk {k u j w} : IsString k → Mark ':' u → Q j w → Member Q (k, j) (k ++ (u ++ w))

def boolText (b : Bool) : List Char := if b then ['t', 'r', 'u', 'e'] else ['f', 'a', 'l', 's', 'e']

/-- `value = false / null / true / object / array / number / string`. -/
inductive Spells : Json → List Char → Prop
  | null : Spells .null ['n', 'u', 'l', 'l']
  | bool (b : Bool) : Spells (.bool b) (boolText b)
  | number {w} : IsNumber w → Spells (.number w) w
  | string {w} : IsString w → Spells (.string w) w
  | array {js w} : Listed '[' ']' Spells js w → Spells (.array js) w
  | object {ms w} : Listed '{' '}' (Member Spells) ms w → Spells (.object ms) w

/-- `JSON-text = ws value ws`. -/
def IsText (j : Json) (w : List Char) : Prop :=
  ∃ a v b, Blank a ∧ j.Spells v ∧ Blank b ∧ w = a ++ (v ++ b)

/-! ### Lists that go on -/

/-- The text `t` goes on a list with the parts `as`, whatever part stands before it. -/
def Continues {α : Type} (Q : α → List Char → Prop) (as : List α) (t : List Char) : Prop :=
  ∀ a w, Q a w → Items Q (a :: as) (w ++ t)

section

variable {α : Type} {Q : α → List Char → Prop}

theorem continues_nil : Continues Q [] [] := by
  intro a w h
  rw [List.append_nil]
  exact .one h

theorem Continues.more {a : α} {as : List α} {u w t : List Char} (hu : Mark ',' u) (ha : Q a w)
    (ht : Continues Q as t) : Continues Q (a :: as) (u ++ (w ++ t)) :=
  fun _ _ h => .more h hu (ht a w ha)

end

/-! ### Induction over derivations -/

section

variable {α : Type} {Q Q' : α → List Char → Prop} {l r : Char} {as : List α} {w : List Char}

theorem Mark.length_pos {c : Char} {u : List Char} (h : Mark c u) : 0 < u.length := by
  obtain ⟨a, b, _, _, rfl⟩ := h
  rw [List.length_append, List.length_cons]
  omega

theorem Items.imp (h : Items Q as w) (hQ : ∀ a u, u.length ≤ w.length → Q a u → Q' a u) :
    Items Q' as w := by
  induction h with
  | one ha => exact .one (hQ _ _ (Nat.le_refl _) ha)
  | @more a w u as m ha hu _ ih =>
      rw [List.length_append, List.length_append] at hQ
      refine .more (hQ a w (by omega) ha) hu (ih fun a u hle => hQ a u (by omega))

theorem Listed.imp (h : Listed l r Q as w) (hQ : ∀ a u, u.length < w.length → Q a u → Q' a u) :
    Listed l r Q' as w := by
  cases h with
  | empty hu hv => exact .empty hu hv
  | @items u _ m v hu hm hv =>
      have := hu.length_pos
      rw [List.length_append, List.length_append] at hQ
      exact .items hu (hm.imp fun a u hle => hQ a u (by omega)) hv

end

theorem Member.imp {Q Q' : Json → List Char → Prop} {p : List Char × Json} {w : List Char}
    (h : Member Q p w) (hQ : ∀ j u, u.length ≤ w.length → Q j u → Q' j u) : Member Q' p w := by
  cases h with
  | @mk k u j w hk hu hw =>
      rw [List.length_append, List.length_append] at hQ
      exact .mk hk hu (hQ j w (by omega) hw)

/-- Induction over derivations. -/
theorem Spells.induct {P : Json → List Char → Prop} (null : P .null ['n', 'u', 'l', 'l'])
    (bool : ∀ b, P (.bool b) (boolText b)) (number : ∀ w, IsNumber w → P (.number w) w)
    (string : ∀ w, IsString w → P (.string w) w)
    (array : ∀ js w, Listed '[' ']' P js w → P (.array js) w)
    (object : ∀ ms w, Listed '{' '}' (Member P) ms w → P (.object ms) w)
    {j : Json} {w : List Char} (h : j.Spells w) : P j w := by
  induction hn : w.length using Nat.strongRecOn generalizing j w with
  | ind n ih =>
      cases h with
      | null => exact null
      | bool b => exact bool b
      | number hw => exact number w hw
      | string hw => exact string w hw
      | array hl => exact array _ w (hl.imp fun j u hu h => ih u.length (by omega) h rfl)
      | object hl =>
          refine object _ w (hl.imp fun p u hu hp => hp.imp fun j u' hu' h => ?_)
          exact ih u'.length (by omega) h rfl

end Json

end ConcreteSyntax
