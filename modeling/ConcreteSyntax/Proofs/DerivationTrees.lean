import ConcreteSyntax.Proofs.Layers
import ConcreteSyntax.Proofs.Tree.Addresses

/-! # Trees are derivations

Every production of a tree has children whose rules, trivia left out, form a word of its rule, and every
token has a text that is a word of its terminal (`Language.derives_parseTree`).

* **Rules as they are documented** (`Language.documented`).  The grammars that are run factor out common
  beginnings and read up to a stop word in one go.  The documented forms of these rules list their
  alternatives in full; they have all the words of the forms that are run.
* **Heredocs.**  Marks are empty wherever they are pushed or compared outside of lookaheads, so it does no
  harm to leave out the operations on them, except for the tag of a heredoc: it is pushed when it is read
  and popped at the end.  Without the tag no heredoc would be a word of its rule
  (`Language.heredoc_not_derives`). -/

namespace ConcreteSyntax

/-! ### Documented rules -/

namespace HclRule

open ConcreteSyntax.Expr ConcreteSyntax.Rule

/-- The rules of the language as they are documented. -/
def documented : HclRule → Rule HclRule
  | object =>
    .normal (seq [
      LBRACE,
      nestOpen,
      opt (seq [objectElem, star (seq [opt COMMA, objectElem]), opt COMMA]),
      nestClose,
      RBRACE])
  | COMMENT =>
    .atomic (choice [
      seq [lit "/*", star (seq [notAhead (lit "*/"), anyChar]), lit "*/"],
      seq [oneOf ["#", "//"], star (seq [notAhead (oneOf ["\n", "\r"]), anyChar])]])
  | r => r.definition

end HclRule

namespace JavaRule

open ConcreteSyntax.Expr ConcreteSyntax.Rule

def documented : JavaRule → Rule JavaRule
  | shiftOperator => .compound (choice [seq [LT, LT], seq [GT, GT, GT], seq [GT, GT]])
  | castExpression =>
    .normal (choice [
      seq [LPAREN, primitiveType, opt dims, RPAREN, unaryExpression],
      seq [
        LPAREN,
        typeType,
        star (seq [BITAND, typeType]),
        RPAREN,
        choice [lambdaExpression, unaryExpressionNotPlusMinus]]])
  | lambdaParameters =>
    .normal (choice [
      Identifier,
      seq [LPAREN, opt formalParameterList, RPAREN],
      seq [LPAREN, Identifier, star (seq [COMMA, Identifier]), RPAREN]])
  | FloatingPointLiteral =>
    .atomic (choice [
      seq [digits, lit ".", opt digits, opt exponent, opt floatSuffix],
      seq [lit ".", digits, opt exponent, opt floatSuffix],
      seq [digits, exponent, opt floatSuffix],
      seq [digits, floatSuffix]])
  | escapeSequence =>
    .silent (choice [
      seq [lit "\\", oneOf ["b", "t", "n", "f", "r", "s", "\"", "'", "\\"]],
      seq [lit "\\", seq [octalDigit, opt octalDigit, opt octalDigit]],
      seq [lit "\\", oneOrMore (lit "u"), hexDigit, hexDigit, hexDigit, hexDigit]])
  | COMMENT =>
    .atomic (choice [
      seq [lit "/*", star (seq [notAhead (lit "*/"), anyChar]), lit "*/"],
      seq [lit "//", star (seq [notAhead (oneOf ["\n", "\r"]), anyChar])]])
  | r => r.definition

end JavaRule

/-- The grammar of a language with its rules as they are documented. -/
def Language.documented : (l : Language) → Grammar l.Rules
  | java => { JavaRule.grammar with rule := JavaRule.documented }
  | json => JsonRule.grammar
  | hcl => { HclRule.grammar with rule := HclRule.documented }

section Words

variable {R : Type} {g : Grammar R} {tag : Option (List Char)} {a b : Expr R} {w : List (Symbol R)}

namespace Grammar

theorem derives_chars (u : List Char) :
    g.Derives tag (.star (.group (.cat (.notAhead a) .anyChar))) (u.map .char) := by
  induction u with
  | nil => exact .star_nil
  | cons ch u ih =>
      have hone : g.Derives tag (.group (.cat (.notAhead a) .anyChar)) ([] ++ [.char ch]) :=
        .group (.cat .notAhead (.char rfl))
      exact .star_cons hone ih

theorem Derives.chars_of_upTo {stops : List (List Char)} (h : g.Derives tag (.upTo stops) w) :
    g.Derives tag (.star (.group (.cat (.notAhead a) .anyChar))) w := by
  cases h with
  | upTo => exact derives_chars _

theorem derives_cat : g.Derives tag (.cat a b) w ↔
    ∃ u v, g.Derives tag a u ∧ g.Derives tag b v ∧ w = u ++ v := by
  constructor
  · intro h
    cases h with
    | cat ha hb => exact ⟨_, _, ha, hb, rfl⟩
  · rintro ⟨u, v, ha, hb, rfl⟩
    exact .cat ha hb

theorem derives_group : g.Derives tag (.group a) w ↔ g.Derives tag a w := by
  constructor
  · intro h
    cases h with
    | group h => exact h
  · exact .group

/-- A repetition can be cut before or after its second part. -/
theorem Derives.slide (h : g.Derives tag (.cat b (.star (.group (.cat a b)))) w) :
    g.Derives tag (.cat (.star (.group (.cat b a))) b) w := by
  obtain ⟨u, v, hb, hstar, rfl⟩ := derives_cat.mp h
  clear h
  generalize hs : Expr.star (.group (.cat a b)) = e at hstar
  induction hstar generalizing u with
  | star_nil =>
      have hend : g.Derives tag (.cat (.star (.group (.cat b a))) b) ([] ++ u) := .cat .star_nil hb
      simpa using hend
  | star_cons hround _ _ ih =>
      cases hs
      obtain ⟨x, y, ha, hb', rfl⟩ := derives_cat.mp (derives_group.mp hround)
      obtain ⟨x', y', hrounds, hlast, hxy⟩ := derives_cat.mp (ih y hb' rfl)
      have hslid := Derives.cat (.star_cons (.group (.cat hb ha)) hrounds) hlast
      rw [List.append_assoc, ← hxy] at hslid
      simpa using hslid
  | _ => cases hs

/-- A comment may be read one character at a time, whether it is closed or ends with its line. -/
theorem Derives.comment {d x y : Expr R} {stops stops' : List (List Char)}
    (h : g.Derives tag (.alt (.group (.cat a (.cat (.upTo stops) b))) (.group (.cat d (.upTo stops')))) w) :
    g.Derives tag (.alt
      (.group (.cat a (.cat (.star (.group (.cat (.notAhead x) .anyChar))) b)))
      (.group (.cat d (.star (.group (.cat (.notAhead y) .anyChar)))))) w := by
  cases h with
  | alt_left h =>
      obtain ⟨_, _, hopen, hrest, rfl⟩ := derives_cat.mp (derives_group.mp h)
      obtain ⟨_, _, htext, hclose, rfl⟩ := derives_cat.mp hrest
      exact .alt_left (.group (.cat hopen (.cat htext.chars_of_upTo hclose)))
  | alt_right h =>
      obtain ⟨_, _, hopen, htext, rfl⟩ := derives_cat.mp (derives_group.mp h)
      exact .alt_right (.group (.cat hopen htext.chars_of_upTo))

theorem Derives.distrib {d : Expr R} (h : g.Derives tag (.group (.cat d (.alt a b))) w) :
    g.Derives tag (.group (.cat d a)) w ∨ g.Derives tag (.group (.cat d b)) w := by
  obtain ⟨u, v, hd, hab, rfl⟩ := derives_cat.mp (derives_group.mp h)
  cases hab with
  | alt_left ha => exact .inl (.group (.cat hd ha))
  | alt_right hb => exact .inr (.group (.cat hd hb))

theorem derives_cat_group {d : Expr R} :
    g.Derives tag (.group (.cat d (.group a))) w ↔ g.Derives tag (.group (.cat d a)) w := by
  rw [derives_group, derives_group, derives_cat, derives_cat]
  simp only [derives_group]

end Grammar

end Words

open Grammar (derives_cat derives_group derives_cat_group)

/-- Of HCL's rules the documented forms have all words. -/
theorem HclRule.derives_documented {g : Grammar HclRule} {tag : Option (List Char)} (r : HclRule)
    {w : List (Symbol HclRule)} (h : g.Derives tag (grammar.rule r).body w) :
    g.Derives tag (documented r).body w := by
  cases r with
  | object =>
      obtain ⟨_, _, hopen, hinside, rfl⟩ := derives_cat.mp (derives_group.mp h)
      obtain ⟨_, _, hmark, hrest, rfl⟩ := derives_cat.mp hinside
      obtain ⟨_, _, helems, hclose, rfl⟩ := derives_cat.mp hrest
      refine .group (.cat hopen (.cat hmark (.cat ?_ hclose)))
      cases helems with
      | opt_none => exact .opt_none
      | opt_some helems =>
          obtain ⟨_, _, hfirst, hmore, rfl⟩ := derives_cat.mp (derives_group.mp helems)
          exact .opt_some (.group (.cat hfirst hmore.slide))
  | COMMENT => exact Grammar.Derives.comment h
  | _ => exact h

theorem JavaRule.derives_documented {g : Grammar JavaRule} {tag : Option (List Char)} (r : JavaRule)
    {w : List (Symbol JavaRule)} (h : g.Derives tag (grammar.rule r).body w) :
    g.Derives tag (documented r).body w := by
  cases r with
  | shiftOperator =>
      cases h with
      | alt_left h => exact .alt_left h
      | alt_right h =>
          obtain ⟨_, _, hfirst, hrest, rfl⟩ := derives_cat.mp (derives_group.mp h)
          obtain ⟨_, _, hsecond, hthird, rfl⟩ := derives_cat.mp hrest
          cases hthird with
          | opt_none =>
              rw [List.append_nil]
              exact .alt_right (.alt_right (.group (.cat hfirst hsecond)))
          | opt_some hthird =>
              exact .alt_right (.alt_left (.group (.cat hfirst (.cat hsecond hthird))))
  | castExpression =>
      rcases Grammar.Derives.distrib h with h | h
      · exact .alt_left (derives_cat_group.mp h)
      · exact .alt_right (derives_cat_group.mp h)
  | lambdaParameters =>
      cases h with
      | alt_left h => exact .alt_left h
      | alt_right h =>
          rcases h.distrib with h | h
          · exact .alt_right (.alt_left (derives_cat_group.mp h))
          · exact .alt_right (.alt_right (derives_cat_group.mp h))
  | FloatingPointLiteral =>
      cases h with
      | alt_left h => exact .alt_left h
      | alt_right h =>
          cases h with
          | alt_left h => exact .alt_right (.alt_left h)
          | alt_right h =>
              rcases h.distrib with h | h
              · exact .alt_right (.alt_right (.alt_left (derives_cat_group.mp h)))
              · exact .alt_right (.alt_right (.alt_right h))
  | escapeSequence =>
      cases h with
      | alt_left h => exact .alt_left h
      | alt_right h =>
          rcases h.distrib with h | h
          · exact .alt_right (.alt_left h)
          · exact .alt_right (.alt_right (derives_cat_group.mp h))
  | COMMENT => exact Grammar.Derives.comment h
  | _ => exact h

/-- The documented rules derive all that the rules derive that are run. -/
theorem Language.derives_documented {l : Language} {tag : Option (List Char)} {r : l.Rules}
    {w : List (Symbol l.Rules)} (h : l.grammar.Derives tag (l.grammar.rule r).body w) :
    l.documented.Derives tag (l.documented.rule r).body w := by
  cases l with
  | java =>
      refine JavaRule.derives_documented r (h.of_rules (fun r => ?_) fun r w => ?_)
      · cases r <;> rfl
      · exact JavaRule.derives_documented r
  | json => exact h
  | hcl =>
      refine HclRule.derives_documented r (h.of_rules (fun r => ?_) fun r w => ?_)
      · cases r <;> rfl
      · exact HclRule.derives_documented r

/-! ### Heredocs -/

namespace HclRule

/-- The silent rules inside heredocs. -/
def heredocRules : List HclRule := [identStart, identPart, heredocTag, heredocLine, lineBreak]

theorem spelled_heredoc : grammar.Spelled false heredocRules.contains := by
  intro r hr
  have hmem := List.contains_iff_mem.mp hr
  simp only [heredocRules, List.mem_cons, List.not_mem_nil, or_false] at hmem
  rcases hmem with rfl | rfl | rfl | rfl | rfl <;> exact ⟨rfl, rfl⟩

theorem reads_cat_tight {g : Grammar HclRule} {e₁ e₂ : Expr HclRule} {c : Context}
    {s s' : State HclRule} (h : g.Reads (.part false (.cat e₁ e₂)) c s (some s')) :
    ∃ s₁, g.Reads (.part false e₁) c s (some s₁) ∧ g.Reads (.part false e₂) c s₁ (some s') := by
  obtain ⟨s₁, s₂, h₁, hgap, h₂⟩ := Grammar.reads_cat_some.mp h
  cases Grammar.reads_gap_tight.mp hgap
  exact ⟨s₁, h₁, h₂⟩

/-- The text of a heredoc is a word of its rule, with the tag it was opened with. -/
theorem derives_heredoc {source : List Char} {m : Match HclRule}
    (hm : m.Left grammar (State.Unmarked source)) (hr : m.rule = Heredoc) :
    ∃ T, grammar.Derives (some T) (grammar.rule Heredoc).body ((m.text source).map .char) := by
  obtain @⟨_, k, e, c, s₀, s₇, hrule, _, _, hs, h⟩ := hm
  obtain rfl : _ = Heredoc := hr
  obtain rfl : RuleKind.atomic = k := congrArg Rule.kind hrule
  obtain rfl : (grammar.rule Heredoc).body = e := congrArg Rule.body hrule
  have hspell : ∀ (T : List Char) (e : Expr HclRule) (s s' : State HclRule),
      e.spells false heredocRules.contains = true →
      grammar.Reads (.part false e) (RuleKind.atomic.inner c) s (some s') →
      ∃ w, s.Reads s' w ∧ grammar.Derives (some T) e (w.map .char) := by
    intro T e s s' he h
    exact spelled_heredoc.reads (some T) h s' rfl nofun he nofun
  obtain ⟨s₁, h₁, h⟩ := reads_cat_tight (Grammar.reads_group.mp h)
  obtain ⟨s₂, h₂, h⟩ := reads_cat_tight h
  obtain ⟨s₃, h₃, h⟩ := reads_cat_tight h
  obtain ⟨s₄, h₄, h⟩ := reads_cat_tight h
  obtain ⟨s₅, h₅, h⟩ := reads_cat_tight h
  obtain ⟨s₆, h₆, h₇⟩ := reads_cat_tight h
  rcases Grammar.reads_mark.mp h₃ with ⟨s₃', htag, hmark⟩ | ⟨_, hnone⟩
  case inr => cases hnone
  -- the tag is the text that was pushed
  obtain ⟨w₃, hread₃, hw₃⟩ := hspell (s₂.textTo s₃') _ _ _ rfl htag
  have htext : s₂.textTo s₃' = w₃ := by
    rw [State.textTo, hread₃.rest, hread₃.pos, Nat.add_sub_cancel_left, List.take_left]
  rw [htext] at hmark hw₃
  cases hmark
  obtain ⟨w₁, hread₁, hw₁⟩ := hspell w₃ _ _ _ rfl h₁
  obtain ⟨w₂, hread₂, hw₂⟩ := hspell w₃ _ _ _ rfl h₂
  obtain ⟨w₄, hread₄, hw₄⟩ := hspell w₃ _ _ _ rfl h₄
  obtain ⟨w₅, hread₅, hw₅⟩ := hspell w₃ _ _ _ rfl h₅
  obtain ⟨w₆, hread₆, hw₆⟩ := hspell w₃ _ _ _ rfl h₆
  have hbefore := hread₁.trans (hread₂.trans hread₃)
  have hafter := hread₄.trans (hread₅.trans hread₆)
  -- nothing in between touches the marks, so the tag is what is popped
  obtain ⟨hrest₇, hpos₇⟩ : s₆.rest = w₃ ++ s₇.rest ∧ s₇.pos = s₆.pos + w₃.length := by
    cases h₇ with
    | leaf h =>
        obtain ⟨w, ms, rest, hpop, hrest, rfl⟩ := Expr.leafReads_of_leaf? h
        cases hpop with
        | pop hm =>
            have hw : w = w₃ := by
              have hmarks := hm.symm.trans hafter.marks
              exact (List.cons.inj hmarks).1
            exact ⟨hw ▸ hrest, hw ▸ rfl⟩
  have hrest : s₀.rest = w₁ ++ (w₂ ++ (w₃ ++ (w₄ ++ (w₅ ++ (w₆ ++ w₃))))) ++ s₇.rest := by
    have hopened : s₀.rest = w₁ ++ (w₂ ++ w₃) ++ s₃'.rest := hbefore.rest
    have hclosed : s₃'.rest = w₄ ++ (w₅ ++ w₆) ++ s₆.rest := hafter.rest
    rw [hopened, hclosed, hrest₇]
    simp only [List.append_assoc]
  have hpos : s₇.pos = s₀.pos + (w₁ ++ (w₂ ++ (w₃ ++ (w₄ ++ (w₅ ++ (w₆ ++ w₃)))))).length := by
    have hopened : s₃'.pos = s₀.pos + (w₁ ++ (w₂ ++ w₃)).length := hbefore.pos
    have hclosed : s₆.pos = s₃'.pos + (w₄ ++ (w₅ ++ w₆)).length := hafter.pos
    simp only [List.length_append] at hopened hclosed ⊢
    omega
  refine ⟨w₃, ?_⟩
  rw [Match.text, hs.1.text_eq hrest hpos]
  simp only [List.map_append]
  exact .group (.cat hw₁ (.cat hw₂ (.cat (.mark hw₃ fun t ht => by cases ht; rfl)
    (.cat hw₄ (.cat hw₅ (.cat hw₆ .pop))))))

end HclRule

/-! ### Trees -/

namespace Language

/-- The terminals that a tag opens and closes. -/
def tagged : (l : Language) → List l.Rules
  | hcl => [HclRule.Heredoc]
  | java | json => []

theorem loose_eq (l : Language) : l.loose = l.endOfInput :: l.tagged := by
  cases l <;> rfl

theorem derives_endOfInput {l : Language} {source : List Char} {m : Match l.Rules}
    (hm : m.Left l.grammar (State.Unmarked source)) (hr : m.rule = l.endOfInput)
    (tag : Option (List Char)) :
    l.grammar.Derives tag (l.grammar.rule m.rule).body ((m.text source).map .char) := by
  obtain ⟨_, hretains⟩ := l.exists_retains
  have hlast := hretains.last_rule
  rw [← hr] at hlast
  obtain ⟨hrule, _, _, _, h⟩ := hm
  simp only [Match.rule, Match.text] at hlast ⊢
  rw [hlast] at hrule ⊢
  cases hrule
  cases h with
  | leaf h =>
      obtain ⟨w, ms, rest, hread, _, rfl⟩ := Expr.leafReads_of_leaf? h
      cases hread with
      | endOfInput =>
          rw [List.length_nil, Nat.add_zero, Nat.sub_self, List.take_zero]
          exact .endOfInput

/-- The text of every terminal is a word of its rule, with a tag for those that have one. -/
theorem exists_derives_text {l : Language} {source : List Char} {m : Match l.Rules}
    (hm : m.Left l.grammar (State.Unmarked source)) (hl : l.lexical.contains m.rule = false)
    (hv : l.vocabulary.isTerminal m.rule = true) :
    ∃ tag, (tag.isSome = true ↔ m.rule ∈ l.tagged) ∧
      l.grammar.Derives tag (l.grammar.rule m.rule).body ((m.text source).map .char) := by
  by_cases hloose : l.loose.contains m.rule = true
  · rw [List.contains_iff_mem, loose_eq, List.mem_cons] at hloose
    rcases hloose with hend | htagged
    · have huntagged : m.rule ∉ l.tagged := by
        rw [hend]
        cases l <;> decide
      exact ⟨none, iff_of_false Bool.false_ne_true huntagged, derives_endOfInput hm hend none⟩
    · cases l with
      | java | json => cases htagged
      | hcl =>
          have hr : m.rule = HclRule.Heredoc := List.mem_singleton.mp htagged
          obtain ⟨T, hT⟩ := HclRule.derives_heredoc hm hr
          rw [← hr] at hT
          exact ⟨some T, iff_of_true rfl htagged, hT⟩
  · have huntagged : m.rule ∉ l.tagged := by
      intro htagged
      refine hloose (List.contains_iff_mem.mpr ?_)
      rw [loose_eq]
      exact List.mem_cons_of_mem _ htagged
    have hbody := l.layered.derives_text hm hl hv (Bool.eq_false_iff.mpr hloose) none
    exact ⟨none, iff_of_false Bool.false_ne_true huntagged, hbody⟩

theorem start_not_terminal (l : Language) : l.vocabulary.isTerminal l.grammar.start = false := by
  obtain ⟨_, hretains⟩ := l.exists_retains
  exact hretains.start_not_terminal

theorem left_of_parse {l : Language} {source : List Char} {limit : Option Nat} {m : Match l.Rules}
    (h : l.grammar.parse limit source = .ok [m]) :
    m.rule = l.grammar.start ∧ l.lexical.contains m.rule = false ∧
      m.Left l.grammar (State.Unmarked source) := by
  have hkind : (l.grammar.rule l.grammar.start).kind ≠ .silent := by cases l <;> nofun
  have hinit : (Grammar.initialState source : State l.Rules).Unmarked source := ⟨rfl, nofun⟩
  obtain ⟨hstart, hm⟩ := l.grammar.left_of_parse hkind hinit h
  refine ⟨hstart, ?_, hm⟩
  rw [hstart]
  cases l <;> rfl

theorem left_parts {l : Language} {source : List Char} {m : Match l.Rules}
    (hm : l.lexical.contains m.rule = false ∧ m.Left l.grammar (State.Unmarked source))
    (hv : l.vocabulary.isTerminal m.rule = false) : ∀ m' ∈ m.parts,
      l.lexical.contains m'.rule = false ∧ m'.Left l.grammar (State.Unmarked source) := by
  obtain ⟨known, hshifts⟩ := l.exists_shifts
  exact l.layered.left_parts hshifts hm.2 hm.1 hv

theorem exists_left_of_parseTree {l : Language} {origin source : String} {limit : Option Nat}
    {t : Tree l.Rules} (h : l.parseTree origin source limit = .ok t) :
    ∃ m : Match l.Rules, m.rule = l.grammar.start ∧ l.lexical.contains m.rule = false ∧
      m.Left l.grammar (State.Unmarked source.toList) ∧
      t.nodes.toList = (m.nested l.vocabulary source.toList).layout 0 := by
  obtain ⟨m, xs, hp, hlayout, _⟩ := Language.parseTree_spans h
  obtain ⟨hstart, hl, hm⟩ := left_of_parse hp
  exact ⟨m, hstart, hl, hm, hlayout⟩

/-- Every node of a tree comes from a match that its own rule left. -/
theorem exists_left_of_node {l : Language} {origin source : String} {limit : Option Nat}
    {t : Tree l.Rules} (h : l.parseTree origin source limit = .ok t) {i : NodeId} {n : Node l.Rules}
    (hn : t.node? i = some n) : ∃ m : Match l.Rules, l.lexical.contains m.rule = false ∧
      m.Left l.grammar (State.Unmarked source.toList) ∧
      (m.nested l.vocabulary source.toList).At t i := by
  obtain ⟨m, _, hl, hm, hlayout⟩ := exists_left_of_parseTree h
  have hindex : i.index < (m.nested l.vocabulary source.toList).size := by
    obtain ⟨hlt, _⟩ := Array.getElem?_eq_some_iff.mp hn
    rw [← Nested.length_layout 0, ← hlayout, Array.length_toList]
    exact hlt
  obtain ⟨p, y, hy, hat⟩ := Nested.exists_subtreeAt_of_layout (t := t) _ [] []
    (by rw [List.append_nil]; exact hlayout) i.index hindex
  rw [List.length_nil, Nat.zero_add] at hat
  obtain ⟨m', ⟨hl', hm'⟩, rfl⟩ := Match.exists_of_subtreeAt (fun _ => left_parts) ⟨hl, hm⟩ hy
  exact ⟨m', hl', hm', hat⟩

theorem exists_left_of_mem_tokens {l : Language} {origin source : String} {limit : Option Nat}
    {t : Tree l.Rules} (h : l.parseTree origin source limit = .ok t) {tok : Token l.Rules}
    (htok : tok ∈ t.tokens) : ∃ m : Match l.Rules, l.lexical.contains m.rule = false ∧
      m.Left l.grammar (State.Unmarked source.toList) ∧ l.vocabulary.isTerminal m.rule = true ∧
      m.rule = tok.kind ∧ m.text source.toList = tok.text.toList := by
  obtain ⟨n, hmem, hn⟩ := List.mem_filterMap.mp htok
  obtain ⟨k, hk⟩ := List.getElem?_of_mem hmem
  have hnode : t.node? ⟨k⟩ = some n := by
    rw [Tree.node?, ← Array.getElem?_toList]
    exact hk
  obtain ⟨m, hl, hm, hat⟩ := exists_left_of_node h hnode
  cases hv : l.vocabulary.isTerminal m.rule with
  | true =>
      obtain ⟨tok', htok', hkind, htext⟩ := Match.at_token hv hat
      rw [hnode] at htok'
      cases htok'
      cases hn
      exact ⟨m, hl, hm, hv, hkind.symm, htext.symm⟩
  | false =>
      obtain ⟨cs, hcs, _⟩ := Match.at_production hv hat
      rw [hnode] at hcs
      cases hcs
      cases hn

/-- **Trees are derivations.**  The root is a production of the start rule.  The children of every
production, trivia left out, form a word of its rule, and the text of every token is a word of its
terminal.  A heredoc is read with a tag, which stands where it is introduced and where it ends; all other
terminals are read without one. -/
theorem derives_parseTree (l : Language) (origin source : String) (limit : Option Nat)
    (t : Tree l.Rules) (h : l.parseTree origin source limit = .ok t) :
    (∃ cs, t.node? Tree.root = some (.production l.documented.start cs)) ∧
    (∀ i r cs, t.node? i = some (.production r cs) →
      ∃ rs : List l.Rules, cs.toList.map (fun j => (t.node? j).map Node.kind) = rs.map some ∧
        l.documented.Derives none (l.documented.rule r).body
          ((rs.filter fun r => !l.blanks.contains r).map .rule)) ∧
    ∀ tok ∈ t.tokens, ∃ tag, (tag.isSome = true ↔ tok.kind ∈ l.tagged) ∧
      l.documented.Derives tag (l.documented.rule tok.kind).body (tok.text.toList.map .char) := by
  refine ⟨?_, ?_, ?_⟩
  · obtain ⟨m, hstart, _, _, hlayout⟩ := exists_left_of_parseTree h
    have hat := Nested.at_layout (t := t) _ [] [] (by rw [List.append_nil]; exact hlayout)
    have hv : l.vocabulary.isTerminal m.rule = false := by
      rw [hstart]
      exact l.start_not_terminal
    obtain ⟨cs, hcs, _⟩ := Match.at_production hv hat
    refine ⟨cs, hcs.trans ?_⟩
    rw [hstart]
    cases l <;> rfl
  · intro i r cs hn
    obtain ⟨m, hl, hm, hat⟩ := exists_left_of_node h hn
    cases hv : l.vocabulary.isTerminal m.rule with
    | true =>
        obtain ⟨tok, htok, _⟩ := Match.at_token hv hat
        rw [hn] at htok
        cases htok
    | false =>
        obtain ⟨cs', hcs, hkinds⟩ := Match.at_production hv hat
        rw [hn] at hcs
        cases hcs
        exact ⟨_, hkinds, derives_documented (l.layered.derives_parts hm hl hv)⟩
  · intro tok htok
    obtain ⟨m, hl, hm, hv, hkind, htext⟩ := exists_left_of_mem_tokens h htok
    obtain ⟨tag, htag, hword⟩ := exists_derives_text hm hl hv
    rw [← hkind, ← htext]
    exact ⟨tag, htag, derives_documented hword⟩

theorem derives_parseTree_heredoc :
    ∃ t, hcl.parseTree "main.tf" "a = [<<E\nx\nE\n]" none = .ok t ∧
      (∃ cs, t.node? Tree.root = some (.production hcl.documented.start cs)) ∧
      (∀ i r cs, t.node? i = some (.production r cs) →
        ∃ rs : List hcl.Rules, cs.toList.map (fun j => (t.node? j).map Node.kind) = rs.map some ∧
          hcl.documented.Derives none (hcl.documented.rule r).body
            ((rs.filter fun r => !hcl.blanks.contains r).map .rule)) ∧
      ∀ tok ∈ t.tokens, ∃ tag, (tag.isSome = true ↔ tok.kind ∈ hcl.tagged) ∧
        hcl.documented.Derives tag (hcl.documented.rule tok.kind).body (tok.text.toList.map .char) := by
  have hok : (hcl.parseTree "main.tf" "a = [<<E\nx\nE\n]" none).toOption.isSome = true := by
    decide +kernel
  cases ht : hcl.parseTree "main.tf" "a = [<<E\nx\nE\n]" none with
  | error f => rw [ht] at hok; cases hok
  | ok t => exact ⟨t, rfl, derives_parseTree hcl "main.tf" _ none t ht⟩

end Language

/-! ### Without the tag -/

/-- The word is empty or ends with a line feed, a space or a tab. -/
def EndsBlank {R : Type} (w : List (Symbol R)) : Prop :=
  ∀ x, w.getLast? = some x → x = .char '\n' ∨ x = .char ' ' ∨ x = .char '\t'

section EndsBlank

variable {R : Type} {g : Grammar R} {e : Expr R} {u v w : List (Symbol R)}

theorem EndsBlank.append (hu : EndsBlank u) (hv : EndsBlank v) : EndsBlank (u ++ v) := by
  intro x hx
  rw [List.getLast?_append] at hx
  rcases Option.or_eq_some_iff.mp hx with hx | ⟨_, hx⟩
  · exact hv x hx
  · exact hu x hx

theorem EndsBlank.append_left (u : List (Symbol R)) (hv : EndsBlank v ∧ v ≠ []) :
    EndsBlank (u ++ v) ∧ u ++ v ≠ [] := by
  refine ⟨fun x hx => ?_, List.append_ne_nil_of_right_ne_nil u hv.2⟩
  rw [List.getLast?_append] at hx
  rcases Option.or_eq_some_iff.mp hx with hx | ⟨hnone, _⟩
  · exact hv.1 x hx
  · exact absurd (List.getLast?_eq_none_iff.mp hnone) hv.2

theorem Grammar.Derives.endsBlank_star (he : ∀ w, g.Derives none e w → EndsBlank w)
    (h : g.Derives none (.star e) w) : EndsBlank w := by
  generalize hs : Expr.star e = e' at h
  induction h with
  | star_nil => nofun
  | star_cons hround _ _ ih =>
      cases hs
      exact (he _ hround).append (ih rfl)
  | _ => cases hs

end EndsBlank

namespace HclRule

theorem endsBlank_lineBreak {w : List (Symbol HclRule)}
    (h : Language.hcl.documented.Derives none (.ref lineBreak) w) : EndsBlank w ∧ w ≠ [] := by
  cases h with
  | rule hk => exact absurd rfl hk
  | silent _ h =>
      cases h with
      | alt_left h | alt_right h =>
          cases h
          exact ⟨fun x hx => .inl (Option.some.inj hx).symm, nofun⟩

theorem endsBlank_heredocLine {w : List (Symbol HclRule)}
    (h : Language.hcl.documented.Derives none (.ref heredocLine) w) : EndsBlank w := by
  cases h with
  | rule hk => exact absurd rfl hk
  | silent _ h =>
      obtain ⟨u, _, _, hrest, rfl⟩ := derives_cat.mp (derives_group.mp h)
      obtain ⟨u', _, _, hbreak, rfl⟩ := derives_cat.mp hrest
      have hline := EndsBlank.append_left u' (endsBlank_lineBreak hbreak)
      exact (EndsBlank.append_left u hline).1

theorem endsBlank_indent {w : List (Symbol HclRule)}
    (h : Language.hcl.documented.Derives none (.oneOf [" ", "\t"]) w) : EndsBlank w := by
  cases h with
  | alt_left h =>
      cases h
      exact fun x hx => .inr (.inl (Option.some.inj hx).symm)
  | alt_right h =>
      cases h
      exact fun x hx => .inr (.inr (Option.some.inj hx).symm)

/-- Without its tag a heredoc would end with a blank. -/
theorem endsBlank_heredoc {w : List (Symbol HclRule)}
    (h : Language.hcl.documented.Derives none (documented Heredoc).body w) : EndsBlank w := by
  obtain ⟨u₁, _, _, h₁, rfl⟩ := derives_cat.mp (derives_group.mp h)
  obtain ⟨u₂, _, _, h₂, rfl⟩ := derives_cat.mp h₁
  obtain ⟨u₃, _, _, h₃, rfl⟩ := derives_cat.mp h₂
  obtain ⟨_, _, hbreak, h₄, rfl⟩ := derives_cat.mp h₃
  obtain ⟨_, _, hlines, h₅, rfl⟩ := derives_cat.mp h₄
  obtain ⟨_, _, hindent, hpop, rfl⟩ := derives_cat.mp h₅
  cases hpop
  obtain ⟨hblank, hne⟩ := endsBlank_lineBreak hbreak
  have hlines := hlines.endsBlank_star fun _ => endsBlank_heredocLine
  have hindent := hindent.endsBlank_star fun _ => endsBlank_indent
  have hend := hblank.append (hlines.append (hindent.append (v := []) nofun))
  have hafter := EndsBlank.append_left u₃ ⟨hend, List.append_ne_nil_of_left_ne_nil hne _⟩
  exact (EndsBlank.append_left u₁ (EndsBlank.append_left u₂ hafter)).1

end HclRule

/-- Without tags the text of a heredoc is no word of its rule. -/
theorem Language.heredoc_not_derives :
    ∃ t, hcl.parseTree "main.tf" "a=<<E\nE" none = .ok t ∧ ∃ tok ∈ t.tokens,
      ¬ hcl.documented.Derives none (hcl.documented.rule tok.kind).body (tok.text.toList.map .char) := by
  have hok : (hcl.parseTree "main.tf" "a=<<E\nE" none).toOption.any (fun t => t.tokens.any fun tok =>
      hcl.tagged.contains tok.kind && tok.text == "<<E\nE") = true := by
    decide +kernel
  cases ht : hcl.parseTree "main.tf" "a=<<E\nE" none with
  | error f => rw [ht] at hok; cases hok
  | ok t =>
      rw [ht] at hok
      obtain ⟨tok, htok, hboth⟩ := List.any_eq_true.mp hok
      rw [Bool.and_eq_true, List.contains_iff_mem, beq_iff_eq] at hboth
      obtain ⟨hkind, htext⟩ := hboth
      refine ⟨t, rfl, tok, htok, ?_⟩
      rw [List.mem_singleton.mp hkind, htext]
      intro h
      have hlast := HclRule.endsBlank_heredoc h (.char 'E') (by decide +kernel)
      revert hlast
      decide

end ConcreteSyntax
