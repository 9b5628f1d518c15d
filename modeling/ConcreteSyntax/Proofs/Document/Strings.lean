import ConcreteSyntax.Proofs.Document.RoundTrip

/-! # Strings are written exactly

A string is copied in runs of bytes between the bytes that need an escape.

* **Runs** (`putString?`).  Writing that gives up where a run begins or ends inside a character never gives up.  A byte
  that needs an escape is a whole character (`exists_char_of_ascii`), so runs begin and end between characters.
* **Spelling** (`spellString`).  What a string is written as, character by character.  The escapes of bytes are those of
  characters (`escapedChar_eq_spellChar`). -/

namespace ConcreteSyntax.Document

/-! ### Spelling -/

/-- The letter of a short escape, for the characters that have one. -/
def shortForm? : Char → Option Char
  | '"' => some '"'
  | '\\' => some '\\'
  | '\x08' => some 'b'
  | '\x0c' => some 'f'
  | '\n' => some 'n'
  | '\r' => some 'r'
  | '\t' => some 't'
  | _ => none

/-- A character inside a string: its short escape, the escape with its number if it is another one below the space, or
itself. -/
def spellChar (c : Char) : List Char :=
  match shortForm? c with
  | some d => ['\\', d]
  | none =>
    if c.toNat < 0x20 then
      ['\\', 'u', '0', '0', Nat.digitChar (c.toNat / 16), Nat.digitChar (c.toNat % 16)]
    else [c]

/-- A string between its quotes. -/
def spellString (s : String) : List Char := '"' :: (s.toList.flatMap spellChar ++ ['"'])

theorem shortForm?_of_notMem {c : Char} (h : c ∉ shortChars) : shortForm? c = none := by
  simp only [shortChars, List.mem_cons, List.not_mem_nil, or_false, not_or] at h
  obtain ⟨h₁, h₂, h₃, h₄, h₅, h₆, h₇⟩ := h
  rw [shortForm?] <;> assumption

theorem hexDigit_eq_digitChar : ∀ n < 16, hexDigit n = Nat.digitChar n := by
  decide

theorem escapedChar_eq_spellChar (c : Char) : escapedChar c = spellChar c := by
  by_cases hshort : c ∈ shortChars
  · have hall : ∀ c ∈ shortChars, escapedChar c = spellChar c := by
      simp only [shortChars, List.forall_mem_cons]
      exact ⟨by decide, by decide, by decide, by decide, by decide, by decide, by decide,
        fun c hc => by cases hc⟩
    exact hall c hshort
  · rw [spellChar, shortForm?_of_notMem hshort]
    by_cases hascii : c.toNat < 128
    · rw [escapedChar, if_pos hascii, escape?_of_notMem_shortChars hascii hshort]
      by_cases hctl : c.toNat < 0x20
      · rw [if_pos hctl, ← hexDigit_eq_digitChar _ (by omega), ← hexDigit_eq_digitChar _ (by omega)]
        simp only [if_pos hctl, String.toList_ofList]
      · simp only [if_neg hctl]
    · rw [escapedChar, if_neg hascii]
      exact (if_neg (by omega)).symm

theorem quoted_eq_spellString (s : String) : quoted s = spellString s := by
  rw [quoted, spellString, funext escapedChar_eq_spellChar]

/-! ### Runs -/

/-- The UTF-8 form of a text from one place to another; nothing if one of them is inside a character. -/
def slice? (s : String) (start stop : Nat) : Option ByteArray :=
  if start ≤ stop ∧ (String.Pos.Raw.mk start).IsValid s ∧ (String.Pos.Raw.mk stop).IsValid s then
    some (s.toUTF8.extract start stop)
  else none

/-- Write the runs and escapes of a string as `Pen.putRuns` does; nothing if a run begins or ends inside a character. -/
def putRuns? (s : String) (start index : Nat) (p : Pen) : Option Pen :=
  if h : index < s.toUTF8.size then
    match escape? s.toUTF8[index] with
    | none => putRuns? s start (index + 1) p
    | some e =>
      (if start < index then (slice? s start index).map p.putBytes else some p).bind fun p =>
        putRuns? s (index + 1) (index + 1) (p.put e)
  else if start < s.toUTF8.size then (slice? s start s.toUTF8.size).map p.putBytes
  else some p
termination_by s.toUTF8.size - index
decreasing_by all_goals exact Nat.sub_succ_lt_self _ _ h

/-- Write a string; nothing if a run of it begins or ends inside a character. -/
def putString? (p : Pen) (s : String) : Option Pen :=
  (putRuns? s 0 0 (p.put "\"")).map (·.put "\"")

/-- An ASCII byte of a text is a whole character. -/
theorem exists_char_of_ascii {b : UInt8} (hb : b.toNat < 128) : ∀ (cs : List Char) (k : Nat),
    (utf8 cs)[k]? = some b → ∃ before c after, cs = before ++ c :: after ∧
      (utf8 before).length = k ∧ (utf8 (before ++ [c])).length = k + 1
  | [], k, h => by cases h
  | c :: cs, k, h => by
      rw [utf8, List.flatMap_cons, List.getElem?_append] at h
      split at h
      next hk =>
        -- a character beyond ASCII has no such byte, and any other has one byte
        have hascii : c.toNat < 128 := by
          refine Decidable.byContradiction fun hc => ?_
          exact absurd hb (Nat.not_lt.mpr (ge_of_mem_utf8EncodeChar hc (List.mem_of_getElem? h)))
        rw [utf8EncodeChar_of_ascii hascii, List.length_singleton, Nat.lt_one_iff] at hk
        refine ⟨[], c, cs, rfl, hk.symm, ?_⟩
        rw [List.nil_append, utf8, List.flatMap_singleton, utf8EncodeChar_of_ascii hascii, hk]
        rfl
      next hk =>
        obtain ⟨before, d, after, rfl, hlength, hnext⟩ := exists_char_of_ascii hb cs _ h
        refine ⟨c :: before, d, after, rfl, ?_, ?_⟩
        · rw [utf8, List.flatMap_cons, List.length_append]
          rw [utf8] at hlength
          omega
        · rw [List.cons_append, utf8, List.flatMap_cons, List.length_append]
          rw [utf8] at hnext
          omega

theorem isValid_length_utf8 {s : String} {before after : List Char} (h : s.toList = before ++ after) :
    (String.Pos.Raw.mk (utf8 before).length).IsValid s := by
  refine String.Pos.Raw.isValid_iff_exists_append.mpr ⟨String.ofList before, String.ofList after, ?_, ?_⟩
  · rw [← String.ofList_append, ← h, String.ofList_toList]
  · have hlength : (utf8 before).length = (String.ofList before).toUTF8.data.toList.length := by
      rw [toList_toUTF8, String.toList_ofList]
    rw [hlength]
    rfl

/-- Before and behind a byte that needs an escape a text can be cut. -/
theorem isValid_of_escape? {s : String} {index : Nat} (h : index < s.toUTF8.size) {e : String}
    (he : escape? s.toUTF8[index] = some e) :
    (String.Pos.Raw.mk index).IsValid s ∧ (String.Pos.Raw.mk (index + 1)).IsValid s := by
  have hascii : s.toUTF8[index].toNat < 128 := by
    refine Decidable.byContradiction fun hge => ?_
    rw [escape?_of_ge (Nat.le_of_not_lt hge)] at he
    cases he
  have hbyte : (utf8 s.toList)[index]? = some s.toUTF8[index] := by
    rw [← toList_toUTF8, Array.getElem?_toList]
    exact Array.getElem?_eq_getElem h
  obtain ⟨before, c, after, hcs, hindex, hnext⟩ := exists_char_of_ascii hascii _ _ hbyte
  rw [← hindex]
  refine ⟨isValid_length_utf8 hcs, ?_⟩
  rw [hindex, ← hnext]
  exact isValid_length_utf8 (by rw [hcs, List.append_assoc]; rfl)

theorem slice?_eq {s : String} {start stop : Nat} (hle : start ≤ stop)
    (hstart : (String.Pos.Raw.mk start).IsValid s) (hstop : (String.Pos.Raw.mk stop).IsValid s) :
    slice? s start stop = some (s.toUTF8.extract start stop) :=
  if_pos ⟨hle, hstart, hstop⟩

/-- No run begins or ends inside a character. -/
theorem putRuns?_eq (s : String) (start index : Nat) (p : Pen) (hle : start ≤ index)
    (hstart : (String.Pos.Raw.mk start).IsValid s) :
    putRuns? s start index p = some (Pen.putRuns s.toUTF8 start index p) := by
  fun_induction Pen.putRuns s.toUTF8 start index p with
  | case1 start index p hi hnone ih =>
      rw [putRuns?, dif_pos hi]
      simp only [hnone]
      exact ih (Nat.le_succ_of_le hle) hstart
  | case2 start index p hi e he p' ih =>
      obtain ⟨hindex, hnext⟩ := isValid_of_escape? hi he
      have hrun : (if start < index then (slice? s start index).map p.putBytes else some p) = some p' := by
        rw [slice?_eq hle hstart hindex, Option.map_some]
        exact (apply_ite some _ _ _).symm
      rw [putRuns?, dif_pos hi]
      simp only [he, hrun, Option.bind_some]
      exact ih (Nat.le_refl _) hnext
  | case3 start index p hi hs =>
      rw [putRuns?, dif_neg hi, if_pos hs,
        slice?_eq (Nat.le_of_lt hs) hstart String.Pos.Raw.isValid_rawEndPos, Option.map_some]
  | case4 start index p hi hs => rw [putRuns?, dif_neg hi, if_neg hs]

/-! ### Strings -/

theorem Pen.Wrote.bytes_eq {p p' : Pen} {cs : List Char} (h : p.Wrote cs p') :
    p'.bytes = p.bytes ++ (String.ofList cs).toUTF8 := by
  have hbytes : ∀ q : Pen, q.bytes.data.toList = q.written := by
    intro q
    rw [Pen.bytes, ← Array.foldl_toList, toList_foldl_append]
    rfl
  refine ByteArray.ext (Array.toList_inj.mp ?_)
  rw [hbytes, h, ByteArray.data_append, Array.toList_append, hbytes, toList_toUTF8, String.toList_ofList]

theorem decodes_quoted (s : String) : Json.Decodes (quoted s) (.string s) := by
  refine ⟨.string (quoted s), ⟨[], quoted s, [], ?_, .string (isString_quoted s), ?_, ?_⟩, ?_⟩
  · intro c hc
    cases hc
  · intro c hc
    cases hc
  · rw [List.append_nil, List.nil_append]
  · rw [Json.value?, stringValue?_quoted, Option.map_some]

/-- **Strings are written exactly.**  No run of a string that is copied begins or ends inside a character.  What is
written is the UTF-8 form of the string's spelling: a quote, every character with its short escape, with its number
in lower-case digits, or as it is, and a quote.  The only JSON value of this text is the string. -/
theorem putString_exact (p : Pen) (s : String) :
    putString? p s = some (p.putString s) ∧
    (∃ out : ByteArray, (p.putString s).bytes = p.bytes ++ out ∧
      String.fromUTF8? out = some (String.ofList (spellString s))) ∧
    ∀ w, Json.Decodes (spellString s) w ↔ w = .string s := by
  have hruns := putRuns?_eq s 0 0 (p.put "\"") (Nat.le_refl 0) String.Pos.Raw.isValid_zero
  have hwrote := wrote_putString p s
  have hdecodes := decodes_quoted s
  rw [quoted_eq_spellString] at hwrote hdecodes
  refine ⟨?_, ⟨_, hwrote.bytes_eq, ?_⟩, fun w => ?_⟩
  · rw [putString?, hruns]
    rfl
  · exact (textOfBytes_of_utf8 (by rw [toList_toUTF8, String.toList_ofList])).2
  · constructor
    · intro hw
      exact hw.unique hdecodes
    · rintro rfl
      exact hdecodes

example : String.ofList (spellString "é\"\n\x1f/") = "\"é\\\"\\n\\u001f/\"" := by decide

end ConcreteSyntax.Document
