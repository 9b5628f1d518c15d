import ConcreteSyntax.Parsing
import ConcreteSyntax.Proofs.Tree.OfMatch

/-! # Sources come back from their trees

The grammars of all languages read every character inside a terminal: outside terminals their rules
only refer to other rules.  That is a finite check of the rule tables (`Language.exists_retains`).
So the tokens of a tree tile the source, and their texts, one after another, are the source itself
(`Language.text_parseTree`). -/

namespace ConcreteSyntax

/-! ### The rule tables -/

theorem Grammar.covers_of_all {R : Type} [DecidableEq R] {g : Grammar R} {v : Vocabulary R}
    {apart : List R} (hm : ∀ r, r ∈ g.rules)
    (h : g.rules.all (fun r => apart.contains r ||
      (g.rule r).covers (v.isTerminal r) fun r => !apart.contains r) = true) (r : R)
    (hr : (!apart.contains r) = true) :
    (g.rule r).covers (v.isTerminal r) (fun r => !apart.contains r) = true := by
  have hc := List.all_eq_true.mp h r (hm r)
  rw [Bool.not_eq_true'] at hr
  rwa [hr, Bool.false_or] at hc

namespace JsonRule

/-- The rules that hold the end of the input or stand inside terminals only. -/
def apart : List JsonRule := [EOI, document, escape]

theorem mem_all (r : JsonRule) : r ∈ all :=
  List.mem_of_getElem? (i := r.ctorIdx) (by cases r <;> rfl)

theorem retains : grammar.Retains ⟨name⟩ (fun r => !apart.contains r) EOI where
  trivia := by decide +kernel
  covers := Grammar.covers_of_all mem_all (by decide +kernel)
  start_kind := rfl
  start_body := by decide +kernel
  start_not_terminal := by decide +kernel
  last_rule := rfl
  last_terminal := by decide +kernel
  last_not_kept := by decide +kernel

end JsonRule

namespace HclRule

/-- The rules that hold the end of the input or stand inside terminals only. -/
def apart : List HclRule :=
  [EOI, configFile, identStart, identPart, quotedTemplate, templateEscape, templateSeq,
   templateInner, heredocTag, heredocLine, lineBreak, nested]

theorem mem_all (r : HclRule) : r ∈ all :=
  List.mem_of_getElem? (i := r.ctorIdx) (by cases r <;> rfl)

theorem retains : grammar.Retains ⟨name⟩ (fun r => !apart.contains r) EOI where
  trivia := by decide +kernel
  covers := Grammar.covers_of_all mem_all (by decide +kernel)
  start_kind := rfl
  start_body := by decide +kernel
  start_not_terminal := by decide +kernel
  last_rule := rfl
  last_terminal := by decide +kernel
  last_not_kept := by decide +kernel

end HclRule

namespace JavaRule

/-- The rules that hold the end of the input or stand inside terminals only. -/
def apart : List JavaRule :=
  [EOI, compilationUnit, reservedWord, digits, exponent, floatSuffix, escapeSequence, identStart,
   identPart]

theorem mem_all (r : JavaRule) : r ∈ all :=
  List.mem_of_getElem? (i := r.ctorIdx) (by cases r <;> rfl)

theorem retains : grammar.Retains ⟨name⟩ (fun r => !apart.contains r) EOI where
  trivia := by decide +kernel
  covers := Grammar.covers_of_all mem_all (by decide +kernel)
  start_kind := rfl
  start_body := by decide +kernel
  start_not_terminal := by decide +kernel
  last_rule := rfl
  last_terminal := by decide +kernel
  last_not_kept := by decide +kernel

end JavaRule

namespace Language

/-- The terminal for the end of the input. -/
def endOfInput : (l : Language) → l.Rules
  | java => JavaRule.EOI
  | json => JsonRule.EOI
  | hcl => HclRule.EOI

/-- In every language all characters are read by terminals, and the end of the input is one that comes
last. -/
theorem exists_retains : ∀ l : Language,
    ∃ kept, l.grammar.Retains l.vocabulary kept l.endOfInput
  | java => ⟨_, JavaRule.retains⟩
  | json => ⟨_, JsonRule.retains⟩
  | hcl => ⟨_, HclRule.retains⟩

end Language

/-! ### Texts of tilings -/

theorem Tiles.flatMap_text {R : Type} {source : List Char} {lo hi : Nat} {xs : List (Span R)}
    (h : Tiles lo xs hi) (hhi : hi ≤ source.length) :
    xs.flatMap (fun x => (x.token source).text.toList) = (source.drop lo).take (hi - lo) := by
  induction xs generalizing lo with
  | nil =>
      obtain rfl : lo = hi := h
      rw [Nat.sub_self, List.take_zero]
      rfl
  | cons x xs ih =>
      obtain ⟨rfl, hle, ht⟩ := h
      have hsub : hi - x.start = (x.stop - x.start) + (hi - x.stop) := by
        have := ht.le
        omega
      rw [List.flatMap_cons, ih ht, hsub, List.take_add, List.drop_drop, Nat.add_sub_cancel' hle]
      simp [Span.token]

/-- A parse that succeeds gives a tree: the arena of a match whose terminals tile the source, up to the
end of the input. -/
theorem Language.parseTree_of_parse {l : Language} (origin : String) {source : String}
    {limit : Option Nat} {ms : List (Match l.Rules)}
    (h : l.grammar.parse limit source.toList = .ok ms) :
    ∃ m xs t, ms = [m] ∧ l.parseTree origin source limit = .ok t ∧
      t.nodes.toList = (m.nested l.vocabulary source.toList).layout 0 ∧
      m.spans l.vocabulary = xs ++ [⟨l.endOfInput, source.toList.length, source.toList.length⟩] ∧
      Tiles 0 xs source.toList.length ∧ ∀ x ∈ xs, x.kind ≠ l.endOfInput := by
  obtain ⟨kept, hl⟩ := l.exists_retains
  obtain ⟨m, xs, rfl, hm, ht, hk⟩ := hl.tiles_parse h
  have htm : Tiles 0 (m.spans l.vocabulary) source.toList.length := by
    rw [hm]
    exact tiles_append.mpr ⟨_, ht, rfl, Nat.le_refl _, rfl⟩
  obtain ⟨t, ht', hn⟩ := Tree.ofMatches_singleton htm (Nat.le_refl _)
  refine ⟨m, xs, t, rfl, ?_, hn, hm, ht, fun x hx he => ?_⟩
  · simp only [Language.parseTree, h, ht']
  · have := hk x hx
    rw [he, hl.last_not_kept] at this
    cases this

theorem Language.parse_of_parseTree {l : Language} {origin source : String} {limit : Option Nat}
    {t : Tree l.Rules} (h : l.parseTree origin source limit = .ok t) :
    ∃ ms, l.grammar.parse limit source.toList = .ok ms := by
  unfold Language.parseTree at h
  simp only at h
  split at h
  next => cases h
  next => cases h
  next ms hp => exact ⟨ms, hp⟩

/-- Whether a source has a tree can be evaluated. -/
theorem Language.exists_parseTree {l : Language} {origin source : String} {limit : Option Nat}
    (h : (l.parseTree origin source limit).toOption.isSome = true) :
    ∃ t, l.parseTree origin source limit = .ok t := by
  cases ht : l.parseTree origin source limit with
  | error f =>
      rw [ht] at h
      cases h
  | ok t => exact ⟨t, rfl⟩

theorem Language.parseTree_spans {l : Language} {origin source : String} {limit : Option Nat}
    {t : Tree l.Rules} (h : l.parseTree origin source limit = .ok t) :
    ∃ m xs, l.grammar.parse limit source.toList = .ok [m] ∧
      t.nodes.toList = (m.nested l.vocabulary source.toList).layout 0 ∧
      m.spans l.vocabulary = xs ++ [⟨l.endOfInput, source.toList.length, source.toList.length⟩] ∧
      Tiles 0 xs source.toList.length ∧ ∀ x ∈ xs, x.kind ≠ l.endOfInput := by
  obtain ⟨ms, hp⟩ := Language.parse_of_parseTree h
  obtain ⟨m, xs, t', rfl, ht', hn, hm, ht, hk⟩ := Language.parseTree_of_parse origin hp
  rw [h] at ht'
  cases ht'
  exact ⟨m, xs, hp, hn, hm, ht, hk⟩

/-- **The tokens of a tree spell its source**: joined in the order of the arena their texts are the
source, and the end of the input is the last of them, with no text, and no other. -/
theorem Language.text_parseTree (l : Language) (origin source : String) (limit : Option Nat)
    (t : Tree l.Rules) (h : l.parseTree origin source limit = .ok t) :
    t.text = source ∧ ∃ before last, t.tokens = before ++ [last] ∧
      last.kind = l.endOfInput ∧ last.text = "" ∧ ∀ tok ∈ before, tok.kind ≠ l.endOfInput := by
  obtain ⟨m, xs, _, hn, hm, ht, hk⟩ := Language.parseTree_spans h
  have htok : t.tokens = xs.map (Span.token source.toList) ++
      [Span.token source.toList ⟨l.endOfInput, source.toList.length, source.toList.length⟩] := by
    rw [Tree.tokens, hn, Nested.filterMap_layout, Match.tokens_nested, hm, List.map_append]
    rfl
  refine ⟨?_, _, _, htok, rfl, ?_, ?_⟩
  · rw [← String.toList_inj, Tree.text, String.toList_join, htok]
    simp only [List.map_append, List.flatMap_append, List.map_map, List.flatMap_map]
    rw [show xs.flatMap (fun x => String.toList ((Token.text ∘ Span.token source.toList) x)) = _ from
      ht.flatMap_text (Nat.le_refl _)]
    simp [Span.token]
  · simp [Span.token]
  · intro tok htok
    obtain ⟨x, hx, rfl⟩ := List.mem_map.mp htok
    exact hk x hx

theorem Language.text_parseTree_attribute :
    ∃ t, hcl.parseTree "main.tf" "a = [1] # é\n" none = .ok t ∧ t.text = "a = [1] # é\n" ∧
      ∃ before last, t.tokens = before ++ [last] ∧ last.kind = hcl.endOfInput ∧ last.text = "" ∧
        ∀ tok ∈ before, tok.kind ≠ hcl.endOfInput := by
  have hok : (hcl.parseTree "main.tf" "a = [1] # é\n" none).toOption.isSome = true := by
    decide +kernel
  cases ht : hcl.parseTree "main.tf" "a = [1] # é\n" none with
  | error f => rw [ht] at hok; cases hok
  | ok t => exact ⟨t, rfl, Language.text_parseTree hcl "main.tf" _ none t ht⟩

end ConcreteSyntax
