import ConcreteSyntax.Proofs.Grammar.Lexical
import ConcreteSyntax.Proofs.Tokens

/-! # Heredocs

A heredoc opens with a tag and goes on line by line.  Before each line the grammar looks for the tag at the
end of an indent, where no identifier goes on; a line without it is read whole.

* **Texts** (`HclRule.HeredocText`).  What a heredoc with a given tag looks like: complete lines, none of which
  holds the terminator (`HclRule.Terminates`), then an indent and the tag.
* **Lines** (`HclRule.line_of_reads`, `HclRule.line_stops`).  A line that is read holds no terminator; where none
  is read, the terminator stands there, or the line has no end.
* **What follows** (`Language.heredoc_parseTree`).  After the terminator no identifier goes on.  But the
  lines also stop at one that has no end, and then the tag may close the heredoc in the middle of an
  identifier (`Language.heredoc_cut`). -/

namespace ConcreteSyntax

open Grammar (reads_group reads_ref reads_leaf reads_notAhead reads_silent reads_mark reads_opt
  reads_cat_closed reads_cat_closed_some reads_star_closed reads_lex_some reads_lex_none)

namespace HclRule

/-! ### Texts of heredocs -/

/-- Whether an identifier can begin with a character. -/
def isIdentStart (ch : Char) : Bool :=
  CharClass.asciiLetter.mem ch || (ch == '_' || CharClass.letter.mem ch)

/-- Whether an identifier can go on with a character. -/
def isIdentPart (ch : Char) : Bool :=
  isIdentStart ch || ((CharClass.range '0' '9').mem ch || (ch == '-' || CharClass.decimalNumber.mem ch))

/-- Whether a character may stand in an indent. -/
def isIndent (ch : Char) : Bool := ch == ' ' || ch == '\t'

/-- A tag is an identifier. -/
def IsTag (T : List Char) : Prop :=
  ∃ ch cs, T = ch :: cs ∧ isIdentStart ch = true ∧ ∀ ch' ∈ cs, isIdentPart ch' = true

/-- A line with its end. -/
def IsLine (w : List Char) : Prop := ∃ cs, '\n' ∉ cs ∧ w = cs ++ ['\n']

/-- No identifier goes on with this text. -/
def EndsWord (cs : List Char) : Prop := ∀ ch ∈ cs.head?, isIdentPart ch = false

/-- A text begins with an indent and the tag, and there the identifier ends. -/
def Terminates (T cs : List Char) : Prop :=
  ∃ indent rest, (∀ ch ∈ indent, isIndent ch = true) ∧ cs = indent ++ (T ++ rest) ∧ EndsWord rest

/-- The text of a heredoc with a tag. -/
inductive HeredocText (T : List Char) : List Char → Prop
  | mk {dash brk : List Char} {lines : List (List Char)} {indent : List Char} :
      dash = [] ∨ dash = ['-'] → brk = ['\n'] ∨ brk = ['\r', '\n'] →
      (∀ w ∈ lines, IsLine w ∧ ¬ Terminates T w) → (∀ ch ∈ indent, isIndent ch = true) →
      HeredocText T (['<', '<'] ++ (dash ++ (T ++ (brk ++ (lines.flatten ++ (indent ++ T))))))

theorem IsTag.not_indent {T : List Char} (hT : IsTag T) : ∀ ch ∈ T.head?, isIndent ch = false := by
  obtain ⟨ch, cs, rfl, hch, _⟩ := hT
  intro ch' h
  cases h
  cases hi : isIndent ch with
  | false => rfl
  | true =>
      simp only [isIndent, Bool.or_eq_true, beq_iff_eq] at hi
      rcases hi with rfl | rfl
      · exact absurd hch (by decide +kernel)
      · exact absurd hch (by decide +kernel)

theorem isIdentPart_newline : isIdentPart '\n' = false := by decide +kernel

theorem IsTag.newline_not_mem {T : List Char} (hT : IsTag T) : '\n' ∉ T := by
  obtain ⟨ch, cs, rfl, hch, hcs⟩ := hT
  intro hm
  have hpart : isIdentPart '\n' = true := by
    rcases List.mem_cons.mp hm with rfl | hm
    · rw [isIdentPart, hch, Bool.true_or]
    · exact hcs _ hm
  rw [isIdentPart_newline] at hpart
  cases hpart

theorem indent_unique {T a b r r' : List Char} (hT : IsTag T) (ha : ∀ ch ∈ a, isIndent ch = true)
    (hb : ∀ ch ∈ b, isIndent ch = true) (h : a ++ (T ++ r) = b ++ (T ++ r')) : a = b ∧ r = r' := by
  have htake : ∀ {u v : List Char}, (∀ ch ∈ u, isIndent ch = true) →
      (u ++ (T ++ v)).takeWhile isIndent = u := by
    intro u v hu
    obtain ⟨ch, cs, rfl, _⟩ := id hT
    have hch : isIndent ch = false := hT.not_indent ch rfl
    rw [List.takeWhile_append_of_pos hu, List.cons_append, List.takeWhile_cons, hch]
    simp
  obtain rfl : a = b := by
    calc a = (a ++ (T ++ r)).takeWhile isIndent := (htake ha).symm
      _ = b := by rw [h, htake hb]
  exact ⟨rfl, List.append_cancel_left (List.append_cancel_left h)⟩

theorem Terminates.append {T w : List Char} (hT : IsTag T) (hw : IsLine w) (h : Terminates T w)
    (rest : List Char) : Terminates T (w ++ rest) := by
  obtain ⟨indent, r, hi, rfl, hr⟩ := h
  refine ⟨indent, r ++ rest, hi, by simp, ?_⟩
  cases r with
  | cons ch r => exact hr
  | nil =>
      -- the line would end with the tag
      obtain ⟨cs, _, heq⟩ := hw
      obtain ⟨ch, T', rfl, _⟩ := id hT
      have hlast := congrArg List.getLast? heq
      rw [List.append_nil, List.getLast?_append, List.getLast?_append] at hlast
      have hmem : '\n' ∈ ch :: T' := by
        refine List.mem_of_getLast? ?_
        cases hl : (ch :: T').getLast? with
        | none => exact absurd (List.getLast?_eq_none_iff.mp hl) (List.cons_ne_nil _ _)
        | some x =>
            rw [hl] at hlast
            simpa using hlast
      exact absurd hmem hT.newline_not_mem

/-! ### Words as lengths -/

/-- How many characters the silent rules take of which identifiers and line ends are made. -/
def wordLength : HclRule → List Char → Option Nat
  | identStart, cs => (definition identStart).body.lex (fun _ _ => none) cs
  | identPart, cs => (definition identPart).body.lex
      (fun _ => (definition identStart).body.lex fun _ _ => none) cs
  | lineBreak, cs => (definition lineBreak).body.lex (fun _ _ => none) cs
  | _, _ => none

/-- The rules of which identifiers and line ends are made. -/
def wordRules : List HclRule := [identStart, identPart, lineBreak]

theorem lexes_words : grammar.Lexes wordRules.contains wordLength := by
  have hnone := grammar.lexes_none
  have hstart := hnone.silent (r := identStart) rfl (by decide) (by decide)
  have hpart := hstart.silent (r := identPart) rfl (by decide) (by decide)
  have hbreak := hnone.silent (r := lineBreak) rfl (by decide) (by decide)
  refine .of_forall fun r hr => ?_
  simp only [wordRules, List.contains_iff_mem, List.mem_cons, List.not_mem_nil, or_false] at hr
  rcases hr with rfl | rfl | rfl
  · exact ⟨_, _, hstart, rfl, rfl⟩
  · exact ⟨_, _, hpart, rfl, rfl⟩
  · exact ⟨_, _, hbreak, rfl, rfl⟩

theorem isClass_identStart : (Expr.ref identStart).IsClass wordLength isIdentStart :=
  (Expr.isClass_char .asciiLetter).alt ((Expr.isClass_word '_').alt (Expr.isClass_char .letter))

theorem isClass_identPart : (Expr.ref identPart).IsClass wordLength isIdentPart := by
  have hstart : (Expr.ref identStart).IsClass (fun _ => (definition identStart).body.lex fun _ _ => none)
      isIdentStart := isClass_identStart
  exact hstart.alt ((Expr.isClass_char (.range '0' '9')).alt
    ((Expr.isClass_word '-').alt (Expr.isClass_char .decimalNumber)))

/-- What may stand in an indent. -/
def indentChar : Expr HclRule := Expr.oneOf [" ", "\t"]

theorem isClass_indentChar : indentChar.IsClass wordLength isIndent :=
  (Expr.isClass_word ' ').alt (Expr.isClass_word '\t')

theorem takes_lineBreak {w rest : List Char} :
    (Expr.ref lineBreak).Takes wordLength w rest ↔ w = ['\r', '\n'] ∨ w = ['\n'] := by
  have hbody : ∀ cs, (Expr.ref lineBreak).lex wordLength cs =
      (Expr.alt (.word ['\r', '\n']) (.word ['\n'])).lex wordLength cs := fun _ => rfl
  rw [Expr.Takes, hbody]
  refine Expr.takes_alt.trans ?_
  rw [Expr.takes_word, Expr.takes_word]
  constructor
  · rintro (h | ⟨_, h⟩)
    · exact .inl h
    · exact .inr h
  · rintro (h | rfl)
    · exact .inl h
    · exact .inr ⟨rfl, rfl⟩

theorem ne_newline_of_lex_none {ch : Char} {cs : List Char}
    (h : (Expr.ref lineBreak).lex wordLength (ch :: cs) = none) : ch ≠ '\n' := by
  rintro rfl
  cases h

/-! ### Lines -/

/-- A character of a line. -/
def lineChar : Expr HclRule := Expr.seq [.notAhead lineBreak, Expr.anyChar]

/-- A line up to its end, whatever it holds. -/
def wholeLine : Expr HclRule := .cat (.star lineChar) lineBreak

theorem takes_lineChar {w rest : List Char} : lineChar.Takes wordLength w rest ↔
    ∃ ch, w = [ch] ∧ (Expr.ref lineBreak).lex wordLength (ch :: rest) = none := by
  have hbody : lineChar = .group (.cat (.notAhead lineBreak) (.char .any)) := rfl
  rw [hbody, Expr.takes_group, Expr.takes_cat]
  constructor
  · rintro ⟨u, v, rfl, hu, hv⟩
    obtain ⟨ch, _, rfl⟩ := Expr.takes_char.mp hv
    obtain ⟨rfl, hnone⟩ := Expr.takes_notAhead.mp hu
    exact ⟨ch, rfl, hnone⟩
  · rintro ⟨ch, rfl, h⟩
    exact ⟨[], [ch], rfl, Expr.takes_notAhead.mpr ⟨rfl, h⟩, Expr.takes_char.mpr ⟨ch, rfl, rfl⟩⟩

theorem lex_lineChar_none {cs : List Char} (h : lineChar.lex wordLength cs = none) :
    cs = [] ∨ (Expr.ref lineBreak).lex wordLength cs ≠ none := by
  cases cs with
  | nil => exact .inl rfl
  | cons ch cs =>
      refine .inr fun hn => ?_
      have ht : lineChar.lex wordLength (ch :: cs) = some 1 := takes_lineChar.mpr ⟨ch, rfl, hn⟩
      rw [ht] at h
      cases h

/-- The characters of a line hold no line feed, and they go on up to a line end. -/
theorem takes_lineChars {w rest : List Char} (h : (Expr.star lineChar).Takes wordLength w rest) :
    '\n' ∉ w ∧ (rest = [] ∨ (Expr.ref lineBreak).lex wordLength rest ≠ none) := by
  have hlex : lineChar.isLexical wordRules.contains = true := rfl
  have hpos : ∀ cs n, lineChar.lex wordLength cs = some n → 0 < n :=
    fun _ _ => Expr.lex_pos lexes_words rfl
  have hle : ∀ cs n, lineChar.lex wordLength cs = some n → n ≤ cs.length :=
    fun _ _ => Expr.lex_le lexes_words hlex
  induction w with
  | nil =>
      rcases (Expr.takes_star hpos hle).mp h with ⟨_, h⟩ | ⟨u, v, huv, hu, _⟩
      · exact ⟨List.not_mem_nil, lex_lineChar_none h⟩
      · obtain ⟨ch, rfl, _⟩ := takes_lineChar.mp hu
        cases huv
  | cons ch w ih =>
      rcases (Expr.takes_star hpos hle).mp h with ⟨h, _⟩ | ⟨u, v, huv, hu, hv⟩
      · cases h
      · obtain ⟨ch', rfl, hch⟩ := takes_lineChar.mp hu
        cases huv
        obtain ⟨hw, hrest⟩ := ih hv
        refine ⟨?_, hrest⟩
        rw [List.mem_cons, not_or]
        exact ⟨(ne_newline_of_lex_none hch).symm, hw⟩

theorem isLine_of_takes {w rest : List Char} (h : wholeLine.Takes wordLength w rest) : IsLine w := by
  obtain ⟨u, v, rfl, hu, hv⟩ := Expr.takes_cat.mp h
  obtain ⟨hnot, _⟩ := takes_lineChars hu
  rcases takes_lineBreak.mp hv with rfl | rfl
  · exact ⟨u ++ ['\r'], by simp [hnot], by simp⟩
  · exact ⟨u, hnot, rfl⟩

theorem newline_not_mem_of_lex_none {cs : List Char} (h : wholeLine.lex wordLength cs = none) :
    '\n' ∉ cs := by
  have hstar := Expr.lex_star wordLength lineChar cs
  have hle := Expr.lex_le lexes_words (e := .star lineChar) rfl hstar
  obtain ⟨hnot, hrest⟩ := takes_lineChars (Expr.takes_of_lex hstar hle)
  rw [wholeLine, Expr.lex_cat, hstar, Option.bind_some, Option.map_eq_none_iff] at h
  rcases hrest with hrest | hrest
  · rwa [← List.take_append_drop (lexRounds (lineChar.lex wordLength) cs.length cs) cs, hrest,
      List.append_nil]
  · exact absurd h hrest

section Readings

variable {b : Bool} {c : Context} {s s' : State HclRule} {T : List Char} {ms : List (List Char)}

/-- What is looked for before each line. -/
def terminator : Expr HclRule := Expr.seq [.star indentChar, .peek, .notAhead identPart]

theorem reads_terminator (hc : c.atomicity ≠ .free) (hT : IsTag T) (hm : s.marks = T :: ms) :
    (∃ s', grammar.Reads (.part b terminator) c s (some s')) ↔ Terminates T s.rest := by
  have hindent : (Expr.star indentChar).isLexical wordRules.contains = true := rfl
  have hident : (Expr.ref identPart).isLexical wordRules.contains = true := rfl
  have hc' : { c with lookahead := c.lookahead.negate : Context }.atomicity ≠ .free := hc
  constructor
  · rintro ⟨s', h⟩
    obtain ⟨s₁, h₁, h⟩ := (reads_cat_closed_some hc).mp (reads_group.mp h)
    obtain ⟨s₂, h₂, h₃⟩ := (reads_cat_closed_some hc).mp h
    obtain ⟨w, hw, htakes, rfl⟩ := (reads_lex_some lexes_words hindent hc).mp h₁
    obtain ⟨hblank, _⟩ := (Expr.takes_star_of_class isClass_indentChar).mp htakes
    cases h₂ with
    | leaf h₂ =>
        obtain ⟨u, _, rest, hpeek, hrest, rfl⟩ := Expr.leafReads_of_leaf? h₂
        cases hpeek with
        | peek hm' =>
            obtain rfl : u = T := (List.cons.inj (hm'.symm.trans hm)).1
            rcases reads_notAhead.mp h₃ with ⟨_, _, h⟩ | ⟨h, _⟩
            · cases h
            · have hnone := (reads_lex_none lexes_words hident hc').mp h
              exact ⟨w, rest, hblank, by rw [hw, hrest], isClass_identPart.lex_eq_none.mp hnone⟩
  · rintro ⟨w, rest, hblank, hw, hends⟩
    have htakes : (Expr.star indentChar).Takes wordLength w (T ++ rest) := by
      refine (Expr.takes_star_of_class isClass_indentChar).mpr ⟨hblank, ?_⟩
      obtain ⟨ch, cs, rfl, _⟩ := id hT
      exact hT.not_indent
    have hjump : (s.jump w.length).rest = T ++ rest := by
      rw [State.rest_jump, hw, List.drop_left]
    have h₁ : grammar.Reads (.part b (.star indentChar)) c s (some (s.jump w.length)) := by
      refine (reads_lex_some lexes_words hindent hc).mpr ⟨w, ?_, ?_, rfl⟩
      · rw [hjump, hw]
      · rw [hjump]
        exact htakes
    have h₂ : grammar.Reads (.part b .peek) c (s.jump w.length)
        (some ((s.jump w.length).advance rest T.length)) := by
      refine .leaf ?_
      have hmarks : (s.jump w.length).marks = T :: ms := hm
      simp only [Expr.leaf?, hmarks, State.strip?, hjump, stripWord_append, Option.map_some]
    have h₃ : grammar.Reads (.part b (.notAhead identPart)) c ((s.jump w.length).advance rest T.length)
        (some ((s.jump w.length).advance rest T.length)) := by
      refine .notAhead_none ((reads_lex_none lexes_words hident hc').mpr ?_)
      exact isClass_identPart.lex_eq_none.mpr hends
    refine ⟨(s.jump w.length).advance rest T.length, reads_group.mpr ?_⟩
    exact (reads_cat_closed_some hc).mpr ⟨_, h₁, (reads_cat_closed_some hc).mpr ⟨_, h₂, h₃⟩⟩

theorem rule_heredocLine :
    grammar.rule heredocLine = ⟨.silent, .group (.cat (.notAhead terminator) wholeLine)⟩ := rfl

theorem line_of_reads (hc : c.atomicity ≠ .free) (hT : IsTag T) (hm : s.marks = T :: ms)
    (h : grammar.Reads (.part b heredocLine) c s (some s')) :
    ∃ w, s.rest = w ++ s'.rest ∧ (IsLine w ∧ ¬ Terminates T w) ∧ s' = s.jump w.length := by
  have h := (reads_silent rule_heredocLine).mp (reads_ref.mp h)
  obtain ⟨s₁, h₁, h⟩ := (reads_cat_closed_some hc).mp (reads_group.mp h)
  rcases reads_notAhead.mp h₁ with ⟨_, _, h₁⟩ | ⟨hguard, h₁⟩
  · cases h₁
  cases h₁
  obtain ⟨w, hw, htakes, hjump⟩ := (reads_lex_some lexes_words (e := wholeLine) rfl hc).mp h
  have hline := isLine_of_takes htakes
  refine ⟨w, hw, ⟨hline, fun hterm => ?_⟩, hjump⟩
  have hfound := hterm.append hT hline s'.rest
  rw [← hw] at hfound
  obtain ⟨_, hread⟩ := (reads_terminator (b := true)
    (c := { c with lookahead := c.lookahead.negate }) hc hT hm).mpr hfound
  cases hguard.unique hread

/-- Where no line is read, the terminator stands, or the line has no end. -/
theorem line_stops (hc : c.atomicity ≠ .free) (hT : IsTag T) (hm : s.marks = T :: ms)
    (h : grammar.Reads (.part b heredocLine) c s none) : Terminates T s.rest ∨ '\n' ∉ s.rest := by
  have h := (reads_silent rule_heredocLine).mp (reads_ref.mp h)
  rcases (reads_cat_closed hc).mp (reads_group.mp h) with ⟨h, _⟩ | ⟨s₁, h₁, h⟩
  · rcases reads_notAhead.mp h with ⟨s', hguard, _⟩ | ⟨_, h⟩
    · left
      exact (reads_terminator (c := { c with lookahead := c.lookahead.negate }) hc hT hm).mp ⟨s', hguard⟩
    · cases h
  · rcases reads_notAhead.mp h₁ with ⟨_, _, h₁⟩ | ⟨_, h₁⟩
    · cases h₁
    · cases h₁
      right
      exact newline_not_mem_of_lex_none ((reads_lex_none lexes_words (e := wholeLine) rfl hc).mp h)

/-- The lines of a heredoc go on up to the terminator, or to a line that has no end. -/
theorem lines_of_reads {s : State HclRule} (hc : c.atomicity ≠ .free) (hT : IsTag T)
    (hm : s.marks = T :: ms) (h : grammar.Reads (.part b (.star heredocLine)) c s (some s')) :
    ∃ lines : List (List Char), s.rest = lines.flatten ++ s'.rest ∧
      (∀ w ∈ lines, IsLine w ∧ ¬ Terminates T w) ∧ s' = s.jump lines.flatten.length ∧
      (Terminates T s'.rest ∨ '\n' ∉ s'.rest) := by
  rcases (reads_star_closed hc).mp h with ⟨h, hs⟩ | ⟨s₁, h₁, h₂⟩
  · cases hs
    exact ⟨[], rfl, nofun, rfl, line_stops hc hT hm h⟩
  · obtain ⟨w, hw, hline, rfl⟩ := line_of_reads hc hT hm h₁
    have hshort : (s.jump w.length).rest.length < s.rest.length := by
      obtain ⟨⟨cs, _, rfl⟩, _⟩ := id hline
      have hlen := congrArg List.length hw
      simp only [List.length_append, List.length_singleton] at hlen ⊢
      omega
    obtain ⟨lines, hrest, hlines, hjump, hend⟩ := lines_of_reads (s := s.jump w.length) hc hT hm h₂
    refine ⟨w :: lines, ?_, List.forall_mem_cons.mpr ⟨hline, hlines⟩, ?_, hend⟩
    · rw [hw, hrest, List.flatten_cons, List.append_assoc]
    · rw [hjump, State.jump_jump, List.flatten_cons, List.length_append]
termination_by s.rest.length
decreasing_by exact hshort

/-! ### Heredocs -/

theorem isTag_of_takes {w rest : List Char}
    (h : (Expr.cat identStart (.star identPart)).Takes wordLength w rest) : IsTag w := by
  obtain ⟨u, v, rfl, hu, hv⟩ := Expr.takes_cat.mp h
  obtain ⟨ch, hch, rfl⟩ := (Expr.takes_of_class isClass_identStart).mp hu
  exact ⟨ch, v, rfl, hch, ((Expr.takes_star_of_class isClass_identPart).mp hv).1⟩

theorem tag_of_reads (hc : c.atomicity ≠ .free)
    (h : grammar.Reads (.part b (.mark heredocTag)) c s (some s')) :
    ∃ T, IsTag T ∧ s.rest = T ++ s'.rest ∧
      s' = { s.jump T.length with marks := T :: s.marks } := by
  rcases reads_mark.mp h with ⟨s₁, h, hs⟩ | ⟨_, h⟩
  · have hrule : grammar.rule heredocTag = ⟨.silent, .group (.cat identStart (.star identPart))⟩ := rfl
    have h := reads_group.mp ((reads_silent hrule).mp (reads_ref.mp h))
    obtain ⟨T, hT, htakes, rfl⟩ := (reads_lex_some lexes_words rfl hc).mp h
    cases hs
    refine ⟨T, isTag_of_takes htakes, hT, ?_⟩
    have htext : s.textTo (s.jump T.length) = T := by
      have hpos : (s.jump T.length).pos = s.pos + T.length := rfl
      rw [State.textTo, hpos, hT, Nat.add_sub_cancel_left, List.take_left]
    rw [htext]
    rfl
  · cases h

/-- A heredoc ends with its terminator, unless it was closed on a line that has no end. -/
theorem heredoc_of_reads (hc : c.atomicity ≠ .free)
    (h : grammar.Reads (.part b (definition Heredoc).body) c s (some s')) :
    ∃ T w, IsTag T ∧ HeredocText T w ∧ s.rest = w ++ s'.rest ∧
      (EndsWord s'.rest ∨ '\n' ∉ s'.rest) := by
  obtain ⟨s₁, h₁, h⟩ := (reads_cat_closed_some hc).mp (reads_group.mp h)
  obtain ⟨s₂, h₂, h⟩ := (reads_cat_closed_some hc).mp h
  obtain ⟨s₃, h₃, h⟩ := (reads_cat_closed_some hc).mp h
  obtain ⟨s₄, h₄, h⟩ := (reads_cat_closed_some hc).mp h
  obtain ⟨s₅, h₅, h⟩ := (reads_cat_closed_some hc).mp h
  obtain ⟨s₆, h₆, h₇⟩ := (reads_cat_closed_some hc).mp h
  obtain ⟨w₁, hw₁, ht₁, rfl⟩ := (reads_lex_some lexes_words rfl hc).mp h₁
  obtain rfl : w₁ = ['<', '<'] := Expr.takes_word.mp ht₁
  obtain ⟨dash, hdash, ht₂, rfl⟩ := (reads_lex_some lexes_words rfl hc).mp h₂
  obtain ⟨T, hT, hopen, rfl⟩ := tag_of_reads hc h₃
  obtain ⟨brk, hbrk, ht₄, rfl⟩ := (reads_lex_some lexes_words rfl hc).mp h₄
  obtain ⟨lines, hlines, hall, rfl, hend⟩ := lines_of_reads hc hT rfl h₅
  obtain ⟨indent, hindent, ht₆, rfl⟩ := (reads_lex_some lexes_words rfl hc).mp h₆
  obtain ⟨hblank, _⟩ := (Expr.takes_star_of_class isClass_indentChar).mp ht₆
  cases h₇ with
  | leaf h₇ =>
      obtain ⟨u, _, rest, hpop, hclose, rfl⟩ := Expr.leafReads_of_leaf? h₇
      cases hpop with
      | pop hm =>
          obtain rfl : T = u := (List.cons.inj hm).1
          have hdash' : dash = [] ∨ dash = ['-'] := by
            rcases Expr.takes_opt.mp ht₂ with h | ⟨h, _⟩
            · exact .inr (Expr.takes_word.mp h)
            · exact .inl h
          refine ⟨T, _, hT, .mk hdash' (takes_lineBreak.mp ht₄).symm hall hblank, ?_, ?_⟩
          · rw [hw₁, hdash, hopen, hbrk, hlines, hindent, hclose]
            simp only [List.append_assoc]
          · rcases hend with ⟨indent', rest', hblank', heq, hends⟩ | hnot
            · -- the terminator that stopped the lines is the one that was read
              rw [hindent, hclose] at heq
              obtain ⟨_, rfl⟩ := indent_unique hT hblank hblank' heq
              exact .inl hends
            · rw [hindent, hclose] at hnot
              right
              intro hmem
              exact hnot (List.mem_append_right _ (List.mem_append_right _ hmem))

end Readings

end HclRule

namespace Language

open HclRule (IsTag HeredocText EndsWord)

/-- **Heredocs end at their terminator.**  The text of a heredoc is made of its tag, complete lines without
the terminator, and the tag again.  After it no identifier goes on, or the source has no line end after it. -/
theorem heredoc_parseTree (origin source : String) (limit : Option Nat) (t : Tree hcl.Rules)
    (h : hcl.parseTree origin source limit = .ok t) (before after : List (Token hcl.Rules))
    (tok : Token hcl.Rules) (ht : t.tokens = before ++ tok :: after) (hk : tok.kind = HclRule.Heredoc) :
    ∃ T rest, IsTag T ∧ HeredocText T tok.text.toList ∧
      source.toList = (String.join (before.map Token.text)).toList ++ (tok.text.toList ++ rest) ∧
      (EndsWord rest ∨ '\n' ∉ rest) := by
  obtain ⟨k, e, c, s, s', hrule, _, hread, hbefore, htext, _⟩ := exists_reads_of_token h ht
  rw [hk] at hrule
  obtain rfl : RuleKind.atomic = k := congrArg Rule.kind hrule
  obtain rfl : (HclRule.definition .Heredoc).body = e := congrArg Rule.body hrule
  obtain ⟨T, w, hT, hw, hrest, hend⟩ :=
    HclRule.heredoc_of_reads (c := RuleKind.atomic.inner c) nofun hread
  obtain rfl : tok.text.toList = w := List.append_cancel_right (htext.symm.trans hrest)
  exact ⟨T, s'.rest, hT, hw, by rw [hbefore, htext], hend⟩

theorem heredoc_parseTree_indented : ∃ (t : Tree hcl.Rules) (before after : List (Token hcl.Rules))
    (tok : Token hcl.Rules), hcl.parseTree "main.tf" "a=<<-E\n Ex\n\tE\n" none = .ok t ∧
      t.tokens = before ++ tok :: after ∧ tok.kind = HclRule.Heredoc ∧
      ∃ T rest, IsTag T ∧ HeredocText T tok.text.toList ∧
        "a=<<-E\n Ex\n\tE\n".toList =
          (String.join (before.map Token.text)).toList ++ (tok.text.toList ++ rest) ∧
        (EndsWord rest ∨ '\n' ∉ rest) := by
  obtain ⟨t, before, after, tok, ht, htoks, hk, _⟩ := exists_token_of_words hcl "main.tf"
    "a=<<-E\n Ex\n\tE\n" none [(HclRule.Identifier, "a"), (HclRule.ASSIGN, "=")]
    (HclRule.Heredoc, "<<-E\n Ex\n\tE") [(HclRule.Newline, "\n"), (HclRule.EOI, "")] (by decide +kernel)
  exact ⟨t, before, after, tok, ht, htoks, hk, heredoc_parseTree _ _ _ t ht before after tok htoks hk⟩

/-- On a line that has no end the tag closes a heredoc in the middle of an identifier. -/
theorem heredoc_cut : ∃ (t : Tree hcl.Rules) (before after : List (Token hcl.Rules))
    (tok : Token hcl.Rules), hcl.parseTree "main.tf" "a=<<E\nE-1" none = .ok t ∧
      t.tokens = before ++ tok :: after ∧ tok.kind = HclRule.Heredoc ∧ tok.text = "<<E\nE" ∧
      ¬ EndsWord (String.join (after.map Token.text)).toList := by
  obtain ⟨t, before, after, tok, ht, htoks, hk, htext, hafter⟩ := exists_token_of_words hcl "main.tf"
    "a=<<E\nE-1" none [(HclRule.Identifier, "a"), (HclRule.ASSIGN, "=")] (HclRule.Heredoc, "<<E\nE")
    [(HclRule.MINUS, "-"), (HclRule.NumericLit, "1"), (HclRule.EOI, "")] (by decide +kernel)
  refine ⟨t, before, after, tok, ht, htoks, hk, htext, fun hends => ?_⟩
  have hjoin : String.join (after.map Token.text) = "-1" :=
    (congrArg String.join hafter).trans (by decide +kernel)
  rw [hjoin] at hends
  exact absurd (hends '-' rfl) (by decide +kernel)

end Language

end ConcreteSyntax
