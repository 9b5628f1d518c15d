import ConcreteSyntax.Proofs.Grammar.Attempts
import ConcreteSyntax.Proofs.Layers
import ConcreteSyntax.Proofs.Positions

/-! # Where a source is rejected

A mismatch names one place of its source, in bytes and by line and column, and what was expected there.

* **Places** (`Text.lineCol_eq`).  The end of a text is found in one pass that takes a carriage return and a
  line feed together; the cursor of the tokens takes every character on its own.  They agree, since the
  line feed starts a new line for both.
* **Expectations** (`Language.exists_steady`).  In every language nothing is negated outside of atomic rules.
  So the place that is named was tried, and something was expected there. -/

namespace ConcreteSyntax

/-! ### Places -/

theorem Text.lineCol_append {line column : Nat} {p : List Char} (cs : List Char)
    (hline : line = 1 + p.count '\n') (hcolumn : column = 1 + (lastLine p).length) :
    lineCol line column cs = (1 + (p ++ cs).count '\n', 1 + (lastLine (p ++ cs)).length) := by
  induction line, column, cs using lineCol.induct generalizing p with
  | case1 line column => rw [lineCol, List.append_nil, hline, hcolumn]
  | case2 line column cs ih =>
      have h := ih (p := p ++ ['\r'] ++ ['\n']) (by simp [hline]; omega) (by rw [lastLine_newline]; rfl)
      rw [lineCol, h]
      simp
  | case3 line column cs ih =>
      have h := ih (p := p ++ ['\n']) (by simp [hline]; omega) (by rw [lastLine_newline]; rfl)
      rw [lineCol, h]
      simp
  | case4 line column c cs hcr hlf ih =>
      have hc : c ≠ '\n' := hlf
      have h := ih (p := p ++ [c]) (by simp [hline, hc]) (by simp [hcolumn, lastLine_concat hc]; omega)
      rw [lineCol, h]
      · simp
      · exact hcr
      · exact hlf

theorem Text.lineCol_eq (cs : List Char) :
    lineCol 1 1 cs = (1 + cs.count '\n', 1 + (lastLine cs).length) := lineCol_append (p := []) cs rfl rfl

theorem utf8Size_eq (cs : List Char) : utf8Size cs = (String.ofList cs).utf8ByteSize := by
  have hfold : ∀ n, cs.foldl (fun n c => n + c.utf8Size) n = n + (String.ofList cs).utf8ByteSize := by
    induction cs with
    | nil => intro n; rfl
    | cons c cs ih =>
        intro n
        rw [List.foldl_cons, ih, String.ofList_cons, String.utf8ByteSize_append,
          String.utf8ByteSize_singleton, Nat.add_assoc]
  rw [utf8Size, hfold, Nat.zero_add]

theorem ofList_take_append_drop (source : String) (n : Nat) :
    source = String.ofList (source.toList.take n) ++ String.ofList (source.toList.drop n) := by
  rw [← String.ofList_append, List.take_append_drop, String.ofList_toList]

/-- A mismatch points behind the beginning of a source, to where the cursor of the tokens stands there. -/
structure Mismatch.PointsBehind (m : Mismatch) (source before : String) : Prop where
  source_eq : m.source = source
  offset_eq : m.offset = before.utf8ByteSize
  offset_le : m.offset ≤ source.utf8ByteSize
  boundary : String.Pos.Raw.IsValid source ⟨m.offset⟩
  line_eq : m.line = 1 + before.toList.count '\n'
  column_eq : m.column = 1 + (lastLine before.toList).length
  cursor_line : m.line = ((Text.LineCursor.ofText source.toList).advanceTo before.toList.length).line
  cursor_column :
    m.column = ((Text.LineCursor.ofText source.toList).advanceTo before.toList.length).column + 1

namespace Mismatch

variable (l : Language) (origin : String) (source : List Char) (pos : Nat) (expected : List String)

theorem offset_at : (Mismatch.at l origin source pos expected).offset =
    (String.ofList (source.take pos)).utf8ByteSize := utf8Size_eq _

theorem line_at : (Mismatch.at l origin source pos expected).line = 1 + (source.take pos).count '\n' :=
  congrArg Prod.fst (Text.lineCol_eq _)

theorem column_at : (Mismatch.at l origin source pos expected).column =
    1 + (lastLine (source.take pos)).length := congrArg Prod.snd (Text.lineCol_eq _)

/-- Within a source a mismatch points behind the characters before it. -/
theorem pointsBehind_at (source : String) (hpos : pos ≤ source.toList.length) :
    (Mismatch.at l origin source.toList pos expected).PointsBehind source
      (String.ofList (source.toList.take pos)) := by
  have hsplit := ofList_take_append_drop source pos
  have hoffset := offset_at l origin source.toList pos expected
  have hline := line_at l origin source.toList pos expected
  have hcolumn := column_at l origin source.toList pos expected
  have hcursor : (Text.LineCursor.ofText source.toList).advanceTo
      (String.ofList (source.toList.take pos)).toList.length = .place source.toList pos := by
    rw [String.toList_ofList, List.length_take, Nat.min_eq_left hpos]
    exact Text.LineCursor.advanceTo_place (Nat.zero_le pos) hpos
  refine ⟨String.ofList_toList, hoffset, ?_, ?_, ?_, ?_, ?_, ?_⟩
  · have hsize := congrArg String.utf8ByteSize hsplit
    rw [String.utf8ByteSize_append] at hsize
    omega
  · rw [String.Pos.Raw.isValid_iff_exists_append]
    exact ⟨_, _, hsplit, congrArg String.Pos.Raw.mk hoffset⟩
  · rw [hline, String.toList_ofList]
  · rw [hcolumn, String.toList_ofList]
  · rw [hcursor, hline, Text.LineCursor.line_place]
  · rw [hcursor, hcolumn, Text.LineCursor.column_place, Nat.add_comm]

end Mismatch

/-! ### Expectations -/

section Checks

variable {R : Type}

/-- The rules that may be run inside of atomic rules: these, and all that are atomic. -/
def Grammar.inside (g : Grammar R) (silent : List R) [BEq R] (r : R) : Bool :=
  silent.contains r || (g.rule r).kind = .atomic

/-- Whether a rule stays inside of atomic rules, and outside of them negates nothing. -/
def Grammar.keepsSteady (g : Grammar R) (outer inner : R → Bool) (r : R) : Bool :=
  (!inner r || ((g.rule r).kind ≠ .compound && (g.rule r).body.over true inner)) &&
    (!outer r || if (g.rule r).kind = .atomic then (g.rule r).body.over true inner
      else (g.rule r).body.over false outer)

theorem Grammar.steady_of_checks {g : Grammar R} {outer inner : R → Bool} (hm : ∀ r, r ∈ g.rules)
    (hstart : outer g.start = true) (hkind : (g.rule g.start).kind = .normal)
    (htrivia : g.trivia.over false outer = true) (h : g.rules.all (g.keepsSteady outer inner) = true) :
    g.Steady outer inner := by
  have hall : ∀ r, (inner r = true → (g.rule r).kind ≠ .compound ∧
      (g.rule r).body.over true inner = true) ∧ (outer r = true → (if (g.rule r).kind = .atomic then
        (g.rule r).body.over true inner else (g.rule r).body.over false outer) = true) := by
    intro r
    have hr := forall_of_all hm h r
    rw [Grammar.keepsSteady, Bool.and_eq_true, Bool.or_eq_true, Bool.or_eq_true] at hr
    refine ⟨fun hi => ?_, fun ho => ?_⟩
    · have hin := hr.1.resolve_left (by simp [hi])
      simpa using hin
    · exact hr.2.resolve_left (by simp [ho])
  refine ⟨hstart, hkind, htrivia, fun r => (hall r).1, fun r ho hk => ?_, fun r ho hk => ?_⟩
  · have hr := (hall r).2 ho
    rw [if_pos hk] at hr
    exact hr
  · have hr := (hall r).2 ho
    rw [if_neg hk] at hr
    exact hr

end Checks

theorem JsonRule.steady :
    grammar.Steady (fun r => !lexical.contains r) (grammar.inside lexical) :=
  Grammar.steady_of_checks mem_all rfl rfl rfl (by decide +kernel)

theorem HclRule.steady :
    grammar.Steady (fun r => !lexical.contains r) (grammar.inside lexical) :=
  Grammar.steady_of_checks mem_all rfl rfl rfl (by decide +kernel)

/-- Reserved words are also run inside of identifiers, which are none of them. -/
theorem JavaRule.steady :
    grammar.Steady (fun r => !lexical.contains r) (grammar.inside (reservedWord :: lexical)) :=
  Grammar.steady_of_checks mem_all rfl rfl rfl (by decide +kernel)

namespace Language

theorem exists_steady : ∀ l : Language, ∃ outer inner, l.grammar.Steady outer inner
  | java => ⟨_, _, JavaRule.steady⟩
  | json => ⟨_, _, JsonRule.steady⟩
  | hcl => ⟨_, _, HclRule.steady⟩

theorem mem_rules : ∀ (l : Language) (r : l.Rules), r ∈ l.grammar.rules
  | java, r => JavaRule.mem_all r
  | json, r => JsonRule.mem_all r
  | hcl, r => HclRule.mem_all r

/-! ### Mismatches -/

/-- The mismatch that a source ends with. -/
def mismatch? (l : Language) (origin source : String) (limit : Option Nat) : Option Mismatch :=
  match l.parseTree origin source limit with
  | .error (.mismatched m) => some m
  | _ => none

/-- Whether a source is rejected can be evaluated. -/
theorem parseTree_of_mismatch? {l : Language} {origin source : String} {limit : Option Nat} {m : Mismatch}
    (h : l.mismatch? origin source limit = some m) :
    l.parseTree origin source limit = .error (.mismatched m) := by
  unfold mismatch? at h
  split at h
  next m' hm =>
    cases h
    exact hm
  next => cases h

theorem exists_mismatch_of_parseTree {l : Language} {origin source : String} {limit : Option Nat}
    {m : Mismatch} (h : l.parseTree origin source limit = .error (.mismatched m)) :
    ∃ pos rs, l.grammar.parse limit source.toList = .error (.mismatch pos rs) ∧
      m = .at l origin source.toList pos (rs.map l.grammar.name) := by
  cases hp : l.grammar.parse limit source.toList with
  | ok ms =>
      obtain ⟨_, _, t, _, ht, _⟩ := parseTree_of_parse origin hp
      rw [ht] at h
      cases h
  | error why =>
      simp only [parseTree, hp] at h
      cases why with
      | abandoned why => cases h
      | mismatch pos rs =>
          cases h
          exact ⟨pos, rs, rfl, rfl⟩

theorem pos_le_of_parse {l : Language} {limit : Option Nat} {source : List Char} {pos : Nat}
    {rs : List l.Rules} (h : l.grammar.parse limit source = .error (.mismatch pos rs)) :
    pos ≤ source.length := by
  obtain ⟨outer, inner, hl⟩ := l.exists_steady
  have htried := (hl.tries_of_mismatch h).within
  rw [← Nat.zero_add source.length]
  exact htried.2

/-- **A mismatch points into its source.**  It stands behind a beginning of the source: its offset is the
length of that in bytes, its line one more than the line feeds there, and its column one more than the
characters after the last of them, as the cursor of the tokens has it.  Something was expected there, and
the advice says what. -/
theorem mismatch_parseTree (l : Language) (origin source : String) (limit : Option Nat) (m : Mismatch)
    (h : l.parseTree origin source limit = .error (.mismatched m)) :
    ∃ before after, source = before ++ after ∧ m.PointsBehind source before ∧ m.expected ≠ [] ∧
      (Failure.mismatched m).help = some ("expected one of: " ++ ", ".intercalate m.expected) := by
  obtain ⟨pos, rs, hp, rfl⟩ := exists_mismatch_of_parseTree h
  have hne : rs.map l.grammar.name ≠ [] := by
    obtain ⟨outer, inner, hl⟩ := l.exists_steady
    have hrs := hl.expected_ne_nil l.mem_rules hp
    intro hnil
    exact hrs (List.map_eq_nil_iff.mp hnil)
  refine ⟨_, _, ofList_take_append_drop source pos,
    Mismatch.pointsBehind_at l origin pos _ source (pos_le_of_parse hp), hne, ?_⟩
  exact if_neg (by rw [List.isEmpty_iff]; exact hne)

/-- A carriage return ends a line only together with a line feed. -/
theorem mismatch_parseTree_returns :
    ∃ m, json.parseTree "a.json" "[\r\n\"é\",\r ]" none = .error (.mismatched m) ∧
      (m.offset, m.line, m.column) = (10, 2, 7) ∧ ∃ before after, "[\r\n\"é\",\r ]" = before ++ after ∧
        m.PointsBehind "[\r\n\"é\",\r ]" before ∧ m.expected ≠ [] ∧
        (Failure.mismatched m).help = some ("expected one of: " ++ ", ".intercalate m.expected) := by
  have hplace : (json.mismatch? "a.json" "[\r\n\"é\",\r ]" none).map
      (fun m => (m.offset, m.line, m.column)) = some (10, 2, 7) := by decide +kernel
  obtain ⟨m, hm, hplace⟩ := Option.map_eq_some_iff.mp hplace
  have hparse := parseTree_of_mismatch? hm
  exact ⟨m, hparse, hplace, mismatch_parseTree json "a.json" _ none m hparse⟩

end Language

end ConcreteSyntax
