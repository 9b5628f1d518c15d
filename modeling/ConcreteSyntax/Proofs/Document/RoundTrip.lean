import ConcreteSyntax.Proofs.Document.Strategies
import ConcreteSyntax.Proofs.Document.Written
import ConcreteSyntax.Proofs.Json.Decoding

/-! # Documents can be read back

The text of a document is a JSON text, and its only value is the document of the tree.

* **Literals** (`stringValue?_quoted`, `naturalValue?_toDigits`).  Escapes and digits are read back.
* **Layouts** (`wrote_value`).  Whatever the layout, a value is written as its derivation `Value.json`:
  layouts differ in blanks around structural characters only.  Arrays and objects are written by one
  loop over parts (`writeParts`), so one lemma covers both (`wrote_listed`).
* **Documents** (`decodes_text`).  Both strategies write the value of the nested tree at the root. -/

namespace ConcreteSyntax.Document

open Json

/-! ### Strings -/

theorem ofNat_toNat_ne {c : Char} (hc : c.toNat < 128) (b : UInt8) (h : c ≠ Char.ofNat b.toNat) :
    UInt8.ofNat c.toNat ≠ b := by
  rintro rfl
  rw [UInt8.toNat_ofNat', Nat.mod_eq_of_lt (by omega), Char.ofNat_toNat] at h
  exact h rfl

/-- The characters that are written with a short escape. -/
def shortChars : List Char := ['"', '\\', '\x08', '\x0c', '\n', '\r', '\t']

theorem escapedChar_short : ∀ c ∈ shortChars,
    ∃ d ∈ shortEscapes, shortValue? d = some c ∧ escapedChar c = ['\\', d] := by
  simp only [shortChars, List.forall_mem_cons]
  exact ⟨⟨'"', by decide⟩, ⟨'\\', by decide⟩, ⟨'b', by decide⟩, ⟨'f', by decide⟩, ⟨'n', by decide⟩,
    ⟨'r', by decide⟩, ⟨'t', by decide⟩, nofun⟩

theorem escape?_of_notMem_shortChars {c : Char} (hascii : c.toNat < 128) (h : c ∉ shortChars) :
    escape? (UInt8.ofNat c.toNat) =
      if c.toNat < 0x20 then some (String.ofList ['\\', 'u', '0', '0', hexDigit (c.toNat / 16),
        hexDigit (c.toNat % 16)]) else none := by
  simp only [shortChars, List.mem_cons, List.not_mem_nil, or_false, not_or] at h
  obtain ⟨h₁, h₂, h₃, h₄, h₅, h₆, h₇⟩ := h
  have hne := ofNat_toNat_ne hascii
  have hnat : (UInt8.ofNat c.toNat).toNat = c.toNat := by
    rw [UInt8.toNat_ofNat']
    omega
  have hlt : UInt8.ofNat c.toNat < 0x20 ↔ c.toNat < 0x20 := by
    rw [UInt8.lt_iff_toNat_lt, hnat]
    rfl
  rw [escape?, if_neg (hne 0x22 h₁), if_neg (hne 0x5C h₂), if_neg (hne 0x08 h₃),
    if_neg (hne 0x0C h₄), if_neg (hne 0x0A h₅), if_neg (hne 0x0D h₆), if_neg (hne 0x09 h₇), hnat]
  simp only [hlt]

/-- A character of a string is written as a short escape, as four hexadecimal digits or as it is. -/
theorem escapedChar_cases (c : Char) :
    (∃ d ∈ shortEscapes, shortValue? d = some c ∧ escapedChar c = ['\\', d]) ∨
    (c.toNat < 0x20 ∧ escapedChar c =
      ['\\', 'u', '0', '0', hexDigit (c.toNat / 16), hexDigit (c.toNat % 16)]) ∨
    (0x20 ≤ c.toNat ∧ c ≠ '"' ∧ c ≠ '\\' ∧ escapedChar c = [c]) := by
  by_cases hshort : c ∈ shortChars
  · exact .inl (escapedChar_short c hshort)
  · refine .inr ?_
    have hquote : c ≠ '"' := by
      rintro rfl
      exact hshort (by decide)
    have hbackslash : c ≠ '\\' := by
      rintro rfl
      exact hshort (by decide)
    by_cases hascii : c.toNat < 128
    · rw [escapedChar, if_pos hascii, escape?_of_notMem_shortChars hascii hshort]
      by_cases hctl : c.toNat < 0x20
      · rw [if_pos hctl]
        exact .inl ⟨hctl, String.toList_ofList⟩
      · rw [if_neg hctl]
        exact .inr ⟨Nat.le_of_not_lt hctl, hquote, hbackslash, rfl⟩
    · refine .inr ⟨by omega, hquote, hbackslash, ?_⟩
      rw [escapedChar, if_neg hascii]

theorem hexValue?_hexDigit : ∀ n < 16, isHexDigit (hexDigit n) = true ∧
    hexValue? (hexDigit n) = some n := by
  decide

theorem isChar_escapedChar (c : Char) : IsChar (escapedChar c) := by
  rcases escapedChar_cases c with ⟨d, hd, _, h⟩ | ⟨hctl, h⟩ | ⟨hge, hq, hb, h⟩
  · rw [h]
    exact .short hd
  · rw [h]
    exact .unicode (by decide) (by decide) (hexValue?_hexDigit _ (by omega)).1
      (hexValue?_hexDigit _ (by omega)).1
  · rw [h]
    exact .unescaped hge hq hb

theorem isString_quoted (s : String) : IsString (quoted s) := by
  refine ⟨s.toList.map escapedChar, fun u hu => ?_, rfl⟩
  obtain ⟨c, _, rfl⟩ := List.mem_map.mp hu
  exact isChar_escapedChar c

theorem codes?_escapedChar (c : Char) (cs : List Char) :
    codes? (escapedChar c ++ cs) = (codes? cs).map (c.toNat :: ·) := by
  rcases escapedChar_cases c with ⟨d, hd, hv, h⟩ | ⟨hctl, h⟩ | ⟨hge, hq, hb, h⟩
  · have hu : d ≠ 'u' := by
      rintro rfl
      exact absurd hd (by decide)
    rw [h, List.cons_append, List.cons_append, List.nil_append, codes?, hv, Option.bind_some]
    intro c₁ c₂ c₃ c₄ cs' hd' _
    exact hu hd'
  · have hhigh := (hexValue?_hexDigit (c.toNat / 16) (by omega)).2
    have hlow := (hexValue?_hexDigit (c.toNat % 16) (by omega)).2
    have hzero : hexValue? '0' = some 0 := by decide
    have hnumber : hexNumber? ['0', '0', hexDigit (c.toNat / 16), hexDigit (c.toNat % 16)] =
        some c.toNat := by
      simp only [hexNumber?, List.foldlM_cons, List.foldlM_nil, hzero, hhigh, hlow, Option.map_some,
        Option.bind_eq_bind, Option.bind_some, Option.pure_def]
      exact congrArg some (by omega)
    rw [h]
    simp only [List.cons_append, List.nil_append]
    rw [codes?, hnumber, Option.bind_some]
  · rw [h, List.cons_append, List.nil_append, codes?, if_neg hb]
    · intro _ _ _ _ _ hc
      exact absurd hc hb
    · intro _ _ hc
      exact absurd hc hb

theorem codes?_flatMap_escapedChar (cs : List Char) :
    codes? (cs.flatMap escapedChar) = some (cs.map Char.toNat) := by
  induction cs with
  | nil => rfl
  | cons c cs ih => rw [List.flatMap_cons, codes?_escapedChar, ih, Option.map_some, List.map_cons]

/-- No character is half of a surrogate pair. -/
theorem chars?_map_toNat (cs : List Char) : chars? (cs.map Char.toNat) = some cs := by
  induction cs with
  | nil => rfl
  | cons c cs ih =>
      have hvalid : c.toNat < 0xD800 ∨ 0xDFFF < c.toNat ∧ c.toNat < 0x110000 := c.valid
      have hl : ¬ isLeading c.toNat = true := by simp [isLeading]; omega
      have ht : ¬ isTrailing c.toNat = true := by simp [isTrailing]; omega
      rw [List.map_cons, chars?.eq_def]
      simp only [if_neg hl, if_neg ht, ih, Option.map_some, Char.ofNat_toNat]

theorem stringValue?_quoted (s : String) : stringValue? (quoted s) = some s := by
  rw [stringValue?, quoted, List.drop_one, List.tail_cons, List.dropLast_concat,
    codes?_flatMap_escapedChar, Option.bind_some, chars?_map_toNat, Option.map_some,
    String.ofList_toList]

/-! ### Numbers -/

theorem exists_toDigits_of_pos (n : Nat) (h : 0 < n) :
    ∃ d ds, Nat.toDigits 10 n = d :: ds ∧ d ≠ '0' := by
  induction n using Nat.strongRecOn with
  | ind n ih =>
      by_cases hn : n < 10
      · have hdigit : ∀ n < 10, 0 < n → Nat.digitChar n ≠ '0' := by decide
        exact ⟨n.digitChar, [], Nat.toDigits_of_lt_base hn, hdigit n hn h⟩
      · obtain ⟨d, ds, hds, hd⟩ := ih (n / 10) (by omega) (by omega)
        refine ⟨d, ds ++ [(n % 10).digitChar], ?_, hd⟩
        rw [Nat.toDigits_of_base_le (by decide) (by omega), hds]
        rfl

theorem isDigit_of_mem_toDigits {n : Nat} {d : Char} (h : d ∈ Nat.toDigits 10 n) :
    d.isDigit = true :=
  Nat.isDigit_of_mem_toDigits (by decide) (by decide) h

theorem isInt_toDigits (n : Nat) : IsInt (Nat.toDigits 10 n) := by
  cases n with
  | zero => exact .zero
  | succ n =>
      obtain ⟨d, ds, hds, hd⟩ := exists_toDigits_of_pos (n + 1) (Nat.succ_pos n)
      have hall : ∀ x ∈ d :: ds, x.isDigit = true := fun x hx =>
        isDigit_of_mem_toDigits (hds ▸ hx)
      obtain ⟨hdigit, hdigits⟩ := List.forall_mem_cons.mp hall
      rw [hds]
      exact .nonzero hdigit hd hdigits

theorem isNumber_toDigits (n : Nat) : IsNumber (Nat.toDigits 10 n) := by
  refine ⟨[], Nat.toDigits 10 n, [], [], .inl rfl, isInt_toDigits n, .inl rfl, .inl rfl, ?_⟩
  rw [List.append_nil, List.append_nil, List.nil_append]

theorem naturalValue?_toDigits (n : Nat) : naturalValue? (Nat.toDigits 10 n) = some n := by
  have hall : (Nat.toDigits 10 n).all Char.isDigit = true :=
    List.all_eq_true.mpr fun _ hd => isDigit_of_mem_toDigits hd
  rw [naturalValue?, if_pos hall, Nat.ofDigitChars_ten_toDigits]

/-! ### Values -/

mutual

/-- The derivation of the text a value is written as. -/
def Value.json : Value → Json
  | .null => .null
  | .bool b => .bool b
  | .number n => .number (Nat.toDigits 10 n)
  | .string s => .string (quoted s)
  | .array vs => .array (jsons vs)
  | .object ms => .object (memberJsons ms)

def Value.jsons : List Value → List Json
  | [] => []
  | v :: vs => v.json :: jsons vs

def Value.memberJsons : List (String × Value) → List (List Char × Json)
  | [] => []
  | (key, v) :: ms => (quoted key, v.json) :: memberJsons ms

end

mutual

theorem value?_json : ∀ v : Value, v.json.value? = some v
  | .null => rfl
  | .bool _ => rfl
  | .number n => by rw [Value.json, value?, naturalValue?_toDigits, Option.map_some]
  | .string s => by rw [Value.json, value?, stringValue?_quoted, Option.map_some]
  | .array vs => by rw [Value.json, value?, values?_jsons vs, Option.map_some]
  | .object ms => by rw [Value.json, value?, members?_memberJsons ms, Option.map_some]

theorem values?_jsons : ∀ vs : List Value, values? (Value.jsons vs) = some vs
  | [] => rfl
  | v :: vs => by
      rw [Value.jsons, values?, value?_json v, Option.bind_some, values?_jsons vs, Option.map_some]

theorem members?_memberJsons : ∀ ms : List (String × Value),
    members? (Value.memberJsons ms) = some ms
  | [] => rfl
  | (key, v) :: ms => by
      rw [Value.memberJsons, members?, stringValue?_quoted, Option.bind_some, value?_json v,
        Option.bind_some, members?_memberJsons ms, Option.map_some]

end

/-! ### Layouts -/

namespace Pen

theorem wrote_putIndent (p : Pen) : ∃ b, Blank b ∧ p.Wrote b p.putIndent := by
  have hrepeat : ∀ n, ∃ b, Blank b ∧ p.Wrote b (Nat.repeat (·.put "  ") n p) := by
    intro n
    induction n with
    | zero => exact ⟨[], nofun, .refl p⟩
    | succ n ih =>
        obtain ⟨b, hb, hw⟩ := ih
        exact ⟨b ++ [' ', ' '], blank_append hb (by decide), hw.trans (wrote_put _ "  ")⟩
  exact hrepeat p.indent

/-- Only blanks stand before the first part. -/
theorem wrote_separate_first (p : Pen) : ∃ b, Blank b ∧ p.Wrote b (p.separate true) := by
  rw [separate]
  cases p.layout with
  | compact => exact ⟨[], nofun, .refl p⟩
  | pretty =>
      obtain ⟨b, hb, hw⟩ := (p.put "\n").wrote_putIndent
      exact ⟨'\n' :: b, List.forall_mem_cons.mpr ⟨by decide, hb⟩, (p.wrote_put "\n").trans hw⟩

theorem wrote_separate_next (p : Pen) : ∃ u, Mark ',' u ∧ p.Wrote u (p.separate false) := by
  rw [separate]
  cases p.layout with
  | compact => exact ⟨[','], ⟨[], [], nofun, nofun, rfl⟩, p.wrote_put ","⟩
  | pretty =>
      obtain ⟨b, hb, hw⟩ := (p.put ",\n").wrote_putIndent
      refine ⟨',' :: '\n' :: b, ⟨[], '\n' :: b, nofun, ?_, rfl⟩, (p.wrote_put ",\n").trans hw⟩
      exact List.forall_mem_cons.mpr ⟨by decide, hb⟩

theorem wrote_openWith (p : Pen) (bracket : String) :
    p.Wrote bracket.toList (p.openWith bracket) :=
  wrote_put { p with indent := p.indent + 1, filled := false } bracket

theorem wrote_closeWith (p : Pen) (bracket : String) :
    ∃ b, Blank b ∧ p.Wrote (b ++ bracket.toList) (p.closeWith bracket) := by
  rw [closeWith]
  -- the depth of a pen does not change what it has written
  have hout : p.Wrote [] { p with indent := p.indent - 1 } := .refl p
  generalize { p with indent := p.indent - 1 } = q at hout
  have hput : ∃ b, Blank b ∧ p.Wrote (b ++ bracket.toList) (q.put bracket) :=
    ⟨[], nofun, hout.trans (q.wrote_put bracket)⟩
  cases q.layout with
  | compact => exact hput
  | pretty =>
      dsimp only
      split
      next =>
        obtain ⟨b, hb, hw⟩ := (q.put "\n").wrote_putIndent
        refine ⟨'\n' :: b, List.forall_mem_cons.mpr ⟨by decide, hb⟩, ?_⟩
        exact hout.trans ((q.wrote_put "\n").trans (hw.trans (wrote_put _ bracket)))
      next => exact hput

/-- Write what stands between a key and its value. -/
def putColon (p : Pen) : Pen :=
  match p.layout with
  | .compact => p.put ":"
  | .pretty => p.put ": "

theorem wrote_putColon (p : Pen) : ∃ u, Mark ':' u ∧ p.Wrote u p.putColon := by
  rw [putColon]
  cases p.layout with
  | compact => exact ⟨[':'], ⟨[], [], nofun, nofun, rfl⟩, p.wrote_put ":"⟩
  | pretty => exact ⟨[':', ' '], ⟨[], [' '], nofun, by decide, rfl⟩, p.wrote_put ": "⟩

end Pen

/-! ### Parts of arrays and objects -/

section

variable {α β : Type}

/-- Write the parts of an array or object, each in one go after what separates it. -/
def writeParts (body : α → Pen → Pen) : List α → Bool → Pen → Pen
  | [], _, p => p
  | a :: as, first, p => writeParts body as false (body a (p.separate first)).endPart

variable {body : α → Pen → Pen} {f : α → β} {Q : β → List Char → Prop} {as : List α}

theorem wrote_parts_next
    (hbody : ∀ a ∈ as, ∀ q : Pen, ∃ w, q.Wrote w (body a q) ∧ Q (f a) w) (p : Pen) :
    ∃ t, p.Wrote t (writeParts body as false p) ∧ Continues Q (as.map f) t := by
  induction as generalizing p with
  | nil => exact ⟨[], .refl p, continues_nil⟩
  | cons a as ih =>
      obtain ⟨ha, has⟩ := List.forall_mem_cons.mp hbody
      obtain ⟨u, hu, hsep⟩ := p.wrote_separate_next
      obtain ⟨w, hw, hq⟩ := ha (p.separate false)
      -- to leave a part writes nothing, so `ht` also starts where `hw` ends
      obtain ⟨t, ht, hc⟩ := ih has (body a (p.separate false)).endPart
      exact ⟨u ++ (w ++ t), hsep.trans (hw.trans ht), hc.more hu hq⟩

/-- Parts that are written well make a list that is written well. -/
theorem wrote_listed (hbody : ∀ a ∈ as, ∀ q : Pen, ∃ w, q.Wrote w (body a q) ∧ Q (f a) w)
    (opening closing : String) {l r : Char} (hl : opening.toList = [l]) (hr : closing.toList = [r])
    (p : Pen) : ∃ w, p.Wrote w ((writeParts body as true (p.openWith opening)).closeWith closing) ∧
      Listed l r Q (as.map f) w := by
  have hopen := p.wrote_openWith opening
  rw [hl] at hopen
  cases as with
  | nil =>
      obtain ⟨b, hb, hclose⟩ := (p.openWith opening).wrote_closeWith closing
      rw [hr] at hclose
      exact ⟨[l] ++ (b ++ [r]), hopen.trans hclose,
        .empty ⟨[], [], nofun, nofun, rfl⟩ ⟨b, [], hb, nofun, rfl⟩⟩
  | cons a as =>
      obtain ⟨ha, has⟩ := List.forall_mem_cons.mp hbody
      obtain ⟨b, hb, hsep⟩ := (p.openWith opening).wrote_separate_first
      obtain ⟨w, hw, hq⟩ := ha ((p.openWith opening).separate true)
      obtain ⟨t, ht, hc⟩ :=
        wrote_parts_next has (body a ((p.openWith opening).separate true)).endPart
      obtain ⟨b', hb', hclose⟩ := (writeParts body (a :: as) true (p.openWith opening)).wrote_closeWith
        closing
      rw [hr] at hclose
      refine ⟨([l] ++ b) ++ ((w ++ t) ++ (b' ++ [r])),
        (hopen.trans hsep).trans ((hw.trans ht).trans hclose), ?_⟩
      exact .items ⟨[], b, nofun, hb, rfl⟩ (hc (f a) w hq) ⟨b', [], hb', nofun, rfl⟩

end

/-- Write a member after what separates it. -/
def writeMember (m : String × Value) (p : Pen) : Pen := m.2.write (p.putString m.1).putColon

theorem writeElements_eq : ∀ (vs : List Value) (first : Bool) (p : Pen),
    Value.writeElements vs first p = writeParts Value.write vs first p
  | [], _, _ => rfl
  | v :: vs, first, p => by rw [Value.writeElements, writeElements_eq vs, writeParts]

theorem writeMembers_eq : ∀ (ms : List (String × Value)) (first : Bool) (p : Pen),
    Value.writeMembers ms first p = writeParts writeMember ms first p
  | [], _, _ => rfl
  | (key, v) :: ms, first, p => by
      rw [Value.writeMembers, writeMembers_eq ms, writeParts]
      rfl

theorem jsons_eq_map : ∀ vs : List Value, Value.jsons vs = vs.map Value.json
  | [] => rfl
  | v :: vs => by rw [Value.jsons, jsons_eq_map vs, List.map_cons]

theorem memberJsons_eq_map : ∀ ms : List (String × Value),
    Value.memberJsons ms = ms.map fun m => (quoted m.1, m.2.json)
  | [] => rfl
  | (key, v) :: ms => by rw [Value.memberJsons, memberJsons_eq_map ms, List.map_cons]

mutual

/-- In every layout a value is written as its derivation. -/
theorem wrote_value : ∀ (v : Value) (p : Pen), ∃ w, p.Wrote w (v.write p) ∧ v.json.Spells w
  | .null, p => ⟨_, p.wrote_put "null", .null⟩
  | .bool true, p => ⟨_, p.wrote_put "true", .bool true⟩
  | .bool false, p => ⟨_, p.wrote_put "false", .bool false⟩
  | .number n, p => by
      refine ⟨Nat.toDigits 10 n, ?_, .number (isNumber_toDigits n)⟩
      have h := p.wrote_put n.repr
      rwa [Nat.toList_repr] at h
  | .string s, p => ⟨quoted s, wrote_putString p s, .string (isString_quoted s)⟩
  | .array vs, p => by
      obtain ⟨w, hw, hl⟩ := wrote_listed (wrote_elements vs) "[" "]" rfl rfl p
      rw [Value.write, writeElements_eq, Value.json, jsons_eq_map]
      exact ⟨w, hw, .array hl⟩
  | .object ms, p => by
      obtain ⟨w, hw, hl⟩ := wrote_listed (wrote_members ms) "\x7b" "\x7d" rfl rfl p
      rw [Value.write, writeMembers_eq, Value.json, memberJsons_eq_map]
      exact ⟨w, hw, .object hl⟩

theorem wrote_elements : ∀ vs : List Value, ∀ v ∈ vs, ∀ p : Pen,
    ∃ w, p.Wrote w (v.write p) ∧ v.json.Spells w
  | [] => nofun
  | v :: vs => List.forall_mem_cons.mpr ⟨wrote_value v, wrote_elements vs⟩

theorem wrote_members : ∀ ms : List (String × Value), ∀ m ∈ ms, ∀ p : Pen,
    ∃ w, p.Wrote w (writeMember m p) ∧ Member Spells (quoted m.1, m.2.json) w
  | [] => nofun
  | (key, v) :: ms => by
      refine List.forall_mem_cons.mpr ⟨fun p => ?_, wrote_members ms⟩
      obtain ⟨u, hu, hcolon⟩ := (p.putString key).wrote_putColon
      obtain ⟨w, hw, hs⟩ := wrote_value v (p.putString key).putColon
      exact ⟨quoted key ++ (u ++ w), (wrote_putString p key).trans (hcolon.trans hw),
        .mk (isString_quoted key) hu hs⟩

end

/-! ### Documents -/

variable {R : Type}

/-- The bytes of a written value are the UTF-8 form of a text with its derivation. -/
theorem exists_spells_pieces (value : Value) (layout : Layout) :
    ∃ cs, ((value.pieces layout).foldl (· ++ ·) ByteArray.empty).data.toList = utf8 cs ∧
      value.json.Spells cs := by
  obtain ⟨cs, hw, hs⟩ := wrote_value value { layout := layout }
  refine ⟨cs, ?_, hs⟩
  rw [toList_foldl_append]
  exact hw

/-- A document is a text whose derivation is that of the value of the nested tree at the root. -/
theorem isText_text (v : Vocabulary R) {t : Tree R} (hf : IsForest t.nodes.toList) {x : Nested R}
    (hx : x.At t Tree.root) (o : Options) :
    (text v o t).toUTF8 = bytes v o t ∧ (x.value v).json.IsText (text v o t).toList := by
  obtain ⟨cs, hcs, hs⟩ := exists_spells_pieces (x.value v) o.layout
  rw [← pieces_eq hf hx o] at hcs
  have hcs : (bytes v o t).data.toList = utf8 cs := hcs
  obtain ⟨hbytes, htext⟩ := textOfBytes_of_utf8 hcs
  have htext : text v o t = String.ofList cs := by rw [text, textOfBytes, htext, Option.getD_some]
  rw [htext, String.toList_ofList]
  exact ⟨hbytes.symm, [], cs, [], nofun, hs, nofun, by rw [List.append_nil, List.nil_append]⟩

/-- **Round trip.**  The document of a tree whose builder only used its own ids is one JSON text, in
either strategy and layout and whatever names and texts the tree holds, and the only value that can be
read from it is that of the nested tree at the root. -/
theorem decodes_text (v : Vocabulary R) {t : Tree R} (h : t.Grown) (o : Options) :
    (text v o t).toUTF8 = bytes v o t ∧ (∃ j : Json, j.IsText (text v o t).toList) ∧
      ∃ x : Nested R, x.At t Tree.root ∧
        ∀ w, Decodes (text v o t).toList w ↔ w = x.value v := by
  obtain ⟨x, hx⟩ := h.isForest.exists_at t.size Tree.root (Nat.le_add_left _ _) t.size_pos
  obtain ⟨hbytes, htext⟩ := isText_text v h.isForest hx o
  have hdecodes : Decodes (text v o t).toList (x.value v) := ⟨_, htext, value?_json _⟩
  refine ⟨hbytes, ⟨_, htext⟩, x, hx, fun w => ⟨fun hw => hw.unique hdecodes, ?_⟩⟩
  rintro rfl
  exact hdecodes

/-- A tree whose nodes were linked out of order is read back, under names that need escapes. -/
theorem decodes_text_loose : Tree.loose.Grown ∧
    (text ⟨("\"\n" ++ ·)⟩ ⟨.stream, .pretty⟩ Tree.loose).toUTF8 =
      bytes ⟨("\"\n" ++ ·)⟩ ⟨.stream, .pretty⟩ Tree.loose ∧
    (∃ j : Json, j.IsText (text ⟨("\"\n" ++ ·)⟩ ⟨.stream, .pretty⟩ Tree.loose).toList) ∧
      ∃ x : Nested String, x.At Tree.loose Tree.root ∧
        ∀ w, Decodes (text ⟨("\"\n" ++ ·)⟩ ⟨.stream, .pretty⟩ Tree.loose).toList w ↔
          w = x.value ⟨("\"\n" ++ ·)⟩ :=
  ⟨Tree.grown_loose, decodes_text ⟨("\"\n" ++ ·)⟩ Tree.grown_loose ⟨.stream, .pretty⟩⟩

end ConcreteSyntax.Document
