import ConcreteSyntax.Document.Value
import ConcreteSyntax.Proofs.Json.Completeness

/-! # What a JSON text means

`j.value?` is the value of a derivation: literals are read, escapes in strings become the characters they
stand for, and members keep their order.  Numbers are natural numbers here; a string with half of a
surrogate pair, or a number with sign, fraction or exponent, has no value.

A JSON text has one derivation only (`Json.IsText.unique`), since the grammar reads it to the tree of each
of them and trees of different derivations differ.  So a text has at most one value
(`Json.Decodes.unique`). -/

namespace ConcreteSyntax.Json

open Document (Value)

/-! ### Strings -/

/-- The character that a short escape stands for. -/
def shortValue? : Char → Option Char
  | '"' => some '"'
  | '\\' => some '\\'
  | '/' => some '/'
  | 'b' => some '\x08'
  | 'f' => some '\x0c'
  | 'n' => some '\n'
  | 'r' => some '\r'
  | 't' => some '\t'
  | _ => none

/-- The value of a hexadecimal digit. -/
def hexValue? (c : Char) : Option Nat :=
  if c.isDigit then some (c.toNat - 48)
  else if 'a' ≤ c && c ≤ 'f' then some (c.toNat - 87)
  else if 'A' ≤ c && c ≤ 'F' then some (c.toNat - 55)
  else none

/-- The value of hexadecimal digits. -/
def hexNumber? (cs : List Char) : Option Nat :=
  cs.foldlM (fun n c => (hexValue? c).map (16 * n + ·)) 0

/-- The code points of a string's inside: those of characters as they stand, and the code units of
escapes. -/
def codes? : List Char → Option (List Nat)
  | [] => some []
  | '\\' :: 'u' :: c₁ :: c₂ :: c₃ :: c₄ :: cs =>
    (hexNumber? [c₁, c₂, c₃, c₄]).bind fun n => (codes? cs).map (n :: ·)
  | '\\' :: c :: cs => (shortValue? c).bind fun d => (codes? cs).map (d.toNat :: ·)
  | c :: cs => if c = '\\' then none else (codes? cs).map (c.toNat :: ·)

/-- The first half of a surrogate pair. -/
def isLeading (n : Nat) : Bool := 0xD800 ≤ n && n < 0xDC00
/-- The second half of a surrogate pair. -/
def isTrailing (n : Nat) : Bool := 0xDC00 ≤ n && n < 0xE000

/-- The characters of code points, where two halves of a surrogate pair are one character. -/
def chars? : List Nat → Option (List Char)
  | [] => some []
  | n :: ns =>
    if isLeading n then
      match ns with
      | m :: ns =>
        if isTrailing m then
          (chars? ns).map (Char.ofNat (0x10000 + (n - 0xD800) * 0x400 + (m - 0xDC00)) :: ·)
        else none
      | [] => none
    else if isTrailing n then none
    else (chars? ns).map (Char.ofNat n :: ·)

/-- The text of a string between its quotes. -/
def stringValue? (lexeme : List Char) : Option String :=
  ((codes? (lexeme.drop 1).dropLast).bind chars?).map String.ofList

/-! ### Values -/

/-- The value of a number that is written with digits only. -/
def naturalValue? (lexeme : List Char) : Option Nat :=
  if lexeme.all Char.isDigit then some (Nat.ofDigitChars 10 lexeme 0) else none

mutual

/-- The value of a derivation. -/
def value? : Json → Option Value
  | null => some .null
  | bool b => some (.bool b)
  | number w => (naturalValue? w).map .number
  | string w => (stringValue? w).map .string
  | array js => (values? js).map .array
  | object ms => (members? ms).map .object

def values? : List Json → Option (List Value)
  | [] => some []
  | j :: js => j.value?.bind fun v => (values? js).map (v :: ·)

/-- The keys and values of the members of an object. -/
def members? : List (List Char × Json) → Option (List (String × Value))
  | [] => some []
  | (k, j) :: ms =>
    (stringValue? k).bind fun key => j.value?.bind fun v => (members? ms).map ((key, v) :: ·)

end

/-- The text is a JSON text with this value. -/
def Decodes (cs : List Char) (v : Value) : Prop := ∃ j : Json, j.IsText cs ∧ j.value? = some v

/-! ### One derivation -/

open JsonRule (commas)

theorem commas_injective : ∀ {os os' : List (Outline JsonRule)}, commas os = commas os' → os = os'
  | [], [], _ => rfl
  | [], _ :: _, h => by cases h
  | _ :: _, [], h => by cases h
  | o :: os, o' :: os', h => by
      have h : (.leaf .COMMA "," :: o :: commas os : List (Outline JsonRule)) =
        .leaf .COMMA "," :: o' :: commas os' := h
      obtain ⟨ho, hos⟩ := List.cons.inj (List.cons.inj h).2
      rw [ho, commas_injective hos]

theorem bracketed_injective {o c : Outline JsonRule} {ps ps' : List (Outline JsonRule)}
    (h : bracketed o c ps = bracketed o c ps') : ps = ps' := by
  have h := List.append_cancel_right (List.cons.inj h).2
  cases ps with
  | nil =>
      cases ps' with
      | nil => rfl
      | cons p' ps' => rw [JsonRule.intersperse_comma] at h; cases h
  | cons p ps =>
      cases ps' with
      | nil => rw [JsonRule.intersperse_comma] at h; cases h
      | cons p' ps' =>
          rw [JsonRule.intersperse_comma, JsonRule.intersperse_comma] at h
          obtain ⟨hp, hps⟩ := List.cons.inj h
          rw [hp, commas_injective hps]

mutual

/-- Different derivations have different trees. -/
theorem outline_injective : ∀ {j j' : Json}, j.outline = j'.outline → j = j'
  | null, j', h => by
      cases j' with
      | null => rfl
      | _ => grind [outline]
  | bool b, j', h => by
      cases j' with
      | bool b' => grind [outline]
      | _ => grind [outline]
  | number w, j', h => by
      cases j' with
      | number w' =>
          have h : String.ofList w = String.ofList w' := by simpa [outline] using h
          rw [String.ofList_injective h]
      | _ => grind [outline]
  | string w, j', h => by
      cases j' with
      | string w' =>
          have h : String.ofList w = String.ofList w' := by simpa [outline] using h
          rw [String.ofList_injective h]
      | _ => grind [outline]
  | array js, j', h => by
      cases j' with
      | array js' =>
          have h : bracketed (.leaf .LBRACK "[") (.leaf .RBRACK "]") (outlines js) =
            bracketed (.leaf .LBRACK "[") (.leaf .RBRACK "]") (outlines js') := by
            simpa [outline] using h
          rw [outlines_injective (bracketed_injective h)]
      | _ => grind [outline]
  | object ms, j', h => by
      cases j' with
      | object ms' =>
          have h : bracketed (.leaf .LBRACE "\x7b") (.leaf .RBRACE "\x7d") (memberOutlines ms) =
            bracketed (.leaf .LBRACE "\x7b") (.leaf .RBRACE "\x7d") (memberOutlines ms') := by
            simpa [outline] using h
          rw [memberOutlines_injective (bracketed_injective h)]
      | _ => grind [outline]

theorem outlines_injective : ∀ {js js' : List Json}, outlines js = outlines js' → js = js'
  | [], [], _ => rfl
  | [], _ :: _, h => by rw [outlines, outlines] at h; cases h
  | _ :: _, [], h => by rw [outlines, outlines] at h; cases h
  | j :: js, j' :: js', h => by
      rw [outlines, outlines] at h
      obtain ⟨hj, hjs⟩ := List.cons.inj h
      rw [outline_injective hj, outlines_injective hjs]

theorem memberOutlines_injective : ∀ {ms ms' : List (List Char × Json)},
    memberOutlines ms = memberOutlines ms' → ms = ms'
  | [], [], _ => rfl
  | [], (_, _) :: _, h => by rw [memberOutlines, memberOutlines] at h; cases h
  | (_, _) :: _, [], h => by rw [memberOutlines, memberOutlines] at h; cases h
  | (k, j) :: ms, (k', j') :: ms', h => by
      rw [memberOutlines, memberOutlines] at h
      obtain ⟨hm, hms⟩ := List.cons.inj h
      have hm : String.ofList k = String.ofList k' ∧ j.outline = j'.outline := by simpa using hm
      rw [String.ofList_injective hm.1, outline_injective hm.2, memberOutlines_injective hms]

end

/-- A JSON text has one derivation. -/
theorem IsText.unique {j j' : Json} {cs : List Char} (h : j.IsText cs) (h' : j'.IsText cs) :
    j = j' := by
  have hc := JsonRule.isPlain_initialContext none cs
  obtain ⟨s, hs, hf⟩ := JsonRule.reads_document_of_isText hc h
  obtain ⟨s', hs', hf'⟩ := JsonRule.reads_document_of_isText hc h'
  obtain rfl := Option.some.inj (hs.unique hs')
  rw [hf] at hf'
  have hout : j.outline = j'.outline := by simpa [document] using hf'
  exact outline_injective hout

theorem Decodes.unique {cs : List Char} {v v' : Value} (h : Decodes cs v) (h' : Decodes cs v') :
    v = v' := by
  obtain ⟨j, hj, hv⟩ := h
  obtain ⟨j', hj', hv'⟩ := h'
  obtain rfl := hj.unique hj'
  exact Option.some.inj (hv.symm.trans hv')

end ConcreteSyntax.Json
