import ConcreteSyntax.Proofs.DerivationTrees
import ConcreteSyntax.Proofs.Document.RoundTrip
import ConcreteSyntax.Proofs.Limits
import ConcreteSyntax.Proofs.Positions

/-! # Documents in the language of JSON

A document, in whatever layout, is a source of the JSON language: parsing it gives a tree, unless a limit
stops the parse (`parseTree_document`).

* **Leaves** (`Nested.leaves_outline`).  The leaves of an outline are the tokens that were not left out.  The
  documents of one tree have one derivation, hence one outline, so their tokens are the same but for
  blanks.
* **Compact documents** (`packs_value`).  A compact document is written without blanks: its text is that of
  the leaves.  So the tokens for blanks would be empty, and there is none. -/

namespace ConcreteSyntax

variable {R : Type}

/-! ### Leaves -/

/-- The texts of words, one after another. -/
def joined (words : List (R × String)) : List Char := words.flatMap fun word => word.2.toList

namespace Outline

mutual

/-- The kinds and texts of the leaves, from left to right. -/
def leaves : Outline R → List (R × String)
  | leaf kind text => [(kind, text)]
  | node _ parts => leavesAll parts

/-- The kinds and texts of the leaves of several outlines. -/
def leavesAll : List (Outline R) → List (R × String)
  | [] => []
  | o :: os => o.leaves ++ leavesAll os

end

theorem leavesAll_append (os os' : List (Outline R)) :
    leavesAll (os ++ os') = leavesAll os ++ leavesAll os' := by
  induction os with
  | nil => rfl
  | cons o os ih => rw [List.cons_append, leavesAll, leavesAll, ih, List.append_assoc]

/-- The texts of all leaves, one after another. -/
def spelling (os : List (Outline R)) : List Char := joined (leavesAll os)

theorem spelling_append (os os' : List (Outline R)) :
    spelling (os ++ os') = spelling os ++ spelling os' := by
  rw [spelling, leavesAll_append, joined, List.flatMap_append]
  rfl

theorem spelling_cons (o : Outline R) (os : List (Outline R)) :
    spelling (o :: os) = spelling [o] ++ spelling os :=
  spelling_append [o] os

@[simp] theorem spelling_leaf (kind : R) (s : String) : spelling [leaf kind s] = s.toList := by
  simp [spelling, joined, leavesAll, leaves]

@[simp] theorem spelling_node (r : R) (os : List (Outline R)) :
    spelling [node r os] = spelling os := by
  simp [spelling, joined, leavesAll, leaves]

end Outline

/-- The kinds and texts of tokens that are not left out. -/
def wordsOf (skip : R → Bool) (toks : List (Token R)) : List (R × String) :=
  (toks.filter fun tok => !skip tok.kind).map fun tok => (tok.kind, tok.text)

theorem wordsOf_append (skip : R → Bool) (toks toks' : List (Token R)) :
    wordsOf skip (toks ++ toks') = wordsOf skip toks ++ wordsOf skip toks' := by
  rw [wordsOf, List.filter_append, List.map_append, wordsOf, wordsOf]

namespace Nested

mutual

/-- The leaves of an outline are the tokens that were not left out. -/
theorem leaves_outline (skip : R → Bool) : ∀ x : Nested R,
    Outline.leavesAll (x.outline skip) = wordsOf skip x.tokens
  | token tok => by
      rw [outline, tokens, wordsOf]
      cases hskip : skip tok.kind <;> simp [hskip, Outline.leavesAll, Outline.leaves]
  | production r xs => by
      rw [outline, tokens, ← leaves_outlineAll skip xs, Outline.leavesAll, Outline.leavesAll,
        Outline.leaves, List.append_nil]

theorem leaves_outlineAll (skip : R → Bool) : ∀ xs : List (Nested R),
    Outline.leavesAll (outlineAll skip xs) = wordsOf skip (tokensAll xs)
  | [] => rfl
  | x :: xs => by
      rw [outlineAll, tokensAll, Outline.leavesAll_append, wordsOf_append, leaves_outline skip x,
        leaves_outlineAll skip xs]

end

end Nested

theorem joined_wordsOf_cons (skip : R → Bool) (tok : Token R) (toks : List (Token R)) :
    joined (wordsOf skip (tok :: toks)) =
      (if skip tok.kind then [] else tok.text.toList) ++ joined (wordsOf skip toks) := by
  cases hskip : skip tok.kind <;> simp [joined, wordsOf, hskip]

theorem length_joined_le (skip : R → Bool) (toks : List (Token R)) :
    (joined (wordsOf skip toks)).length ≤ (toks.flatMap fun tok => tok.text.toList).length := by
  induction toks with
  | nil => exact Nat.le_refl 0
  | cons tok toks ih =>
      rw [joined_wordsOf_cons, List.flatMap_cons, List.length_append, List.length_append]
      split
      · rw [List.length_nil]
        omega
      · omega

/-- Tokens that add no text to the others are empty. -/
theorem eq_nil_of_skipped (skip : R → Bool) {toks : List (Token R)}
    (h : (toks.flatMap fun tok => tok.text.toList).length = (joined (wordsOf skip toks)).length) :
    ∀ tok ∈ toks, skip tok.kind = true → tok.text.toList = [] := by
  induction toks with
  | nil =>
      intro tok htok
      cases htok
  | cons tok toks ih =>
      have hle := length_joined_le skip toks
      rw [joined_wordsOf_cons, List.flatMap_cons, List.length_append, List.length_append] at h
      cases hskip : skip tok.kind with
      | true =>
          rw [hskip, if_pos rfl, List.length_nil] at h
          refine List.forall_mem_cons.mpr ⟨fun _ => ?_, ih (by omega)⟩
          exact List.eq_nil_of_length_eq_zero (by omega)
      | false =>
          rw [hskip, if_neg Bool.false_ne_true] at h
          refine List.forall_mem_cons.mpr ⟨fun ht => ?_, ih (by omega)⟩
          rw [hskip] at ht
          cases ht

/-! ### Compact documents -/

namespace Document

open Json Outline

namespace Pen

/-- A compact pen stays compact and writes the text `w` between two states. -/
def Packs (p : Pen) (w : List Char) (p' : Pen) : Prop :=
  p.layout = .compact → p'.layout = .compact ∧ p.Wrote w p'

theorem Packs.trans {p p' p'' : Pen} {w w' : List Char} (h : p.Packs w p') (h' : p'.Packs w' p'') :
    p.Packs (w ++ w') p'' := by
  intro hp
  obtain ⟨hp', hw⟩ := h hp
  obtain ⟨hp'', hw'⟩ := h' hp'
  exact ⟨hp'', hw.trans hw'⟩

theorem packs_put (p : Pen) (s : String) : p.Packs s.toList (p.put s) :=
  fun hp => ⟨hp, p.wrote_put s⟩

theorem layout_putRuns (bytes : ByteArray) (start index : Nat) (p : Pen) :
    (putRuns bytes start index p).layout = p.layout := by
  fun_induction putRuns bytes start index p with
  | case1 start index p hi hnone ih => exact ih
  | case2 start index p hi e he p' ih =>
      have hp' : p'.layout = p.layout := by
        change (if start < index then p.putBytes (bytes.extract start index) else p).layout = p.layout
        split <;> rfl
      exact ih.trans hp'
  | case3 start index p hi hs => rfl
  | case4 start index p hi hs => rfl

theorem packs_putString (p : Pen) (s : String) : p.Packs (quoted s) (p.putString s) := by
  intro hp
  refine ⟨?_, wrote_putString p s⟩
  unfold putString
  exact (layout_putRuns ..).trans hp

theorem packs_openWith (p : Pen) (bracket : String) :
    p.Packs bracket.toList (p.openWith bracket) :=
  fun hp => ⟨hp, p.wrote_openWith bracket⟩

theorem packs_closeWith (p : Pen) (bracket : String) :
    p.Packs bracket.toList (p.closeWith bracket) := by
  intro hp
  unfold closeWith
  simp only [hp]
  exact ⟨rfl, wrote_put { p with indent := p.indent - 1 } bracket⟩

theorem packs_separate_next (p : Pen) : p.Packs [','] (p.separate false) := by
  intro hp
  unfold separate
  simp only [hp]
  exact ⟨hp, p.wrote_put ","⟩

theorem packs_separate_first (p : Pen) : p.Packs [] (p.separate true) := by
  intro hp
  unfold separate
  simp only [hp]
  exact ⟨hp, .refl p⟩

theorem packs_putColon (p : Pen) : p.Packs [':'] p.putColon := by
  intro hp
  unfold putColon
  simp only [hp]
  exact ⟨hp, p.wrote_put ":"⟩

theorem packs_endPart (p : Pen) : p.Packs [] p.endPart := fun hp => ⟨hp, .refl p⟩

end Pen

section

variable {α : Type} {body : α → Pen → Pen} {f : α → Outline JsonRule} {as : List α}

/-- Parts after the first are written with a comma in front of each. -/
theorem packs_parts_next (hbody : ∀ a ∈ as, ∀ q : Pen, q.Packs (spelling [f a]) (body a q)) (p : Pen) :
    p.Packs (spelling (JsonRule.commas (as.map f))) (writeParts body as false p) := by
  induction as generalizing p with
  | nil => exact fun hp => ⟨hp, .refl p⟩
  | cons a as ih =>
      obtain ⟨ha, has⟩ := List.forall_mem_cons.mp hbody
      have hpart := p.packs_separate_next.trans (ha (p.separate false))
      have hall := (hpart.trans (Pen.packs_endPart _)).trans (ih has _)
      have htext : spelling (JsonRule.commas ((a :: as).map f)) =
          ([','] ++ spelling [f a] ++ []) ++ spelling (JsonRule.commas (as.map f)) := by
        rw [JsonRule.commas, List.map_cons, List.flatMap_cons, spelling_append, spelling_cons, spelling_leaf]
        simp [JsonRule.commas]
      rw [htext]
      exact hall

theorem packs_bracketed (hbody : ∀ a ∈ as, ∀ q : Pen, q.Packs (spelling [f a]) (body a q))
    (opening closing : String) (l r : JsonRule) (p : Pen) :
    p.Packs (spelling (bracketed (.leaf l opening) (.leaf r closing) (as.map f)))
      ((writeParts body as true (p.openWith opening)).closeWith closing) := by
  have hopen := p.packs_openWith opening
  rw [bracketed, spelling_cons, spelling_append, spelling_leaf, spelling_leaf]
  cases as with
  | nil => exact hopen.trans (Pen.packs_closeWith _ closing)
  | cons a as =>
      obtain ⟨ha, has⟩ := List.forall_mem_cons.mp hbody
      have hfirst := (Pen.packs_separate_first (p.openWith opening)).trans (ha _)
      have hparts := (hfirst.trans (Pen.packs_endPart _)).trans (packs_parts_next has _)
      rw [List.map_cons, JsonRule.intersperse_comma, spelling_cons]
      have hall := hopen.trans (hparts.trans (Pen.packs_closeWith _ closing))
      simp only [List.nil_append, List.append_nil] at hall
      exact hall

end

mutual

/-- A compact value is written as the leaves of its derivation, with no blanks between them. -/
theorem packs_value : ∀ (v : Value) (p : Pen), p.Packs (spelling [v.json.outline]) (v.write p)
  | .null, p => by
      rw [Value.json, outline, spelling_node, spelling_leaf]
      exact p.packs_put "null"
  | .bool b, p => by
      rw [Value.json, outline, spelling_node]
      cases b with
      | true =>
          rw [if_pos rfl, spelling_leaf]
          exact p.packs_put "true"
      | false =>
          rw [if_neg Bool.false_ne_true, spelling_leaf]
          exact p.packs_put "false"
  | .number n, p => by
      rw [Value.json, outline, spelling_node, spelling_leaf, String.toList_ofList, ← Nat.toList_repr]
      exact p.packs_put n.repr
  | .string s, p => by
      rw [Value.json, outline, spelling_node, spelling_leaf, String.toList_ofList]
      exact p.packs_putString s
  | .array vs, p => by
      rw [Value.write, writeElements_eq, Value.json, outline, spelling_node, spelling_node,
        JsonRule.outlines_eq_map, jsons_eq_map, List.map_map]
      exact packs_bracketed (packs_elements vs) "[" "]" .LBRACK .RBRACK p
  | .object ms, p => by
      rw [Value.write, writeMembers_eq, Value.json, outline, spelling_node, spelling_node,
        JsonRule.memberOutlines_eq_map, memberJsons_eq_map, List.map_map]
      exact packs_bracketed (packs_members ms) "\x7b" "\x7d" .LBRACE .RBRACE p

theorem packs_elements : ∀ vs : List Value, ∀ v ∈ vs, ∀ p : Pen,
    p.Packs (spelling [(outline ∘ Value.json) v]) (v.write p)
  | [] => by
      intro v hv
      cases hv
  | v :: vs => List.forall_mem_cons.mpr ⟨packs_value v, packs_elements vs⟩

theorem packs_members : ∀ ms : List (String × Value), ∀ m ∈ ms, ∀ p : Pen,
    p.Packs (spelling [(JsonRule.memberOutline ∘ fun m => (quoted m.1, m.2.json)) m]) (writeMember m p)
  | [] => by
      intro m hm
      cases hm
  | (key, v) :: ms => by
      refine List.forall_mem_cons.mpr ⟨fun p => ?_, packs_members ms⟩
      have hall := (p.packs_putString key).trans ((Pen.packs_putColon _).trans (packs_value v _))
      rw [Function.comp_apply, JsonRule.memberOutline, spelling_node, spelling_cons, spelling_leaf,
        spelling_cons (.leaf JsonRule.COLON ":"), spelling_leaf, String.toList_ofList]
      exact hall

end

/-- The text of a compact document is that of the leaves of its derivation. -/
theorem toList_text_compact (v : Vocabulary R) {t : Tree R} (hf : IsForest t.nodes.toList)
    {x : Nested R} (hx : x.At t Tree.root) {o : Options} (ho : o.layout = .compact) :
    (Document.text v o t).toList = Outline.spelling [(x.value v).json.outline] := by
  have hwrote := (packs_value (x.value v) { layout := .compact } rfl).2
  have hbytes : (bytes v o t).data.toList = utf8 (Outline.spelling [(x.value v).json.outline]) := by
    rw [bytes, pieces_eq hf hx, ho, toList_foldl_append]
    exact hwrote
  rw [Document.text, textOfBytes, (textOfBytes_of_utf8 hbytes).2, Option.getD_some,
    String.toList_ofList]

end Document

/-! ### Parsed documents -/

namespace JsonRule

theorem ne_nil_of_derives_blank {tag : Option (List Char)} {w : List (Symbol JsonRule)}
    (h : grammar.Derives tag blank w) : w ≠ [] := by
  have hwords : blank = .alt (.word [' ']) (.alt (.word ['\t']) (.alt (.word ['\r']) (.word ['\n']))) :=
    rfl
  have hword : ∀ {ch : Char} {w : List (Symbol JsonRule)}, grammar.Derives tag (.word [ch]) w →
      w ≠ [] := by
    intro ch w h
    cases h
    exact List.cons_ne_nil _ _
  rw [hwords] at h
  cases h with
  | alt_left h => exact hword h
  | alt_right h =>
      cases h with
      | alt_left h => exact hword h
      | alt_right h =>
          cases h with
          | alt_left h => exact hword h
          | alt_right h => exact hword h

theorem text_ne_nil_of_whitespace {origin source : String} {limit : Option Nat} {u : Tree JsonRule}
    (h : Language.json.parseTree origin source limit = .ok u) {tok : Token JsonRule}
    (htok : tok ∈ u.tokens) (hkind : tok.kind = WHITESPACE) : tok.text.toList ≠ [] := by
  obtain ⟨m, hl, hm, hv, hrule, htext⟩ := Language.exists_left_of_mem_tokens h htok
  have hrule : m.rule = WHITESPACE := hrule.trans hkind
  have hderives : grammar.Derives none (.group (.cat blank (.star blank)))
      (tok.text.toList.map .char) := by
    have hword := Language.json.layered.derives_text hm hl hv (by rw [hrule]; rfl) none
    rw [hrule, htext] at hword
    exact hword
  rw [Grammar.derives_group, Grammar.derives_cat] at hderives
  obtain ⟨a, b, ha, _, hab⟩ := hderives
  intro hnil
  rw [hnil] at hab
  exact ne_nil_of_derives_blank ha (List.append_eq_nil_iff.mp hab.symm).1

/-- The tokens of a JSON text that are no blanks are the leaves of its derivation. -/
theorem wordsOf_parseTree {origin source : String} {u : Tree JsonRule} {j : Json}
    (h : Language.json.parseTree origin source none = .ok u) (hj : j.IsText source.toList) :
    wordsOf (· == WHITESPACE) u.tokens = Outline.leavesAll [Json.document (some j)] := by
  obtain ⟨m, _, hparse, hnodes, _⟩ := Language.parseTree_spans h
  have houtline := outline_of_parse hparse
    (reads_document_of_isText (isPlain_initialContext none source.toList) hj)
  have htokens : (m.nested ⟨name⟩ source.toList).tokens = u.tokens :=
    (Nested.at_root_of_layout hnodes).2
  rw [← htokens, ← houtline, Nested.leaves_outline]

end JsonRule

theorem Language.flatMap_text_tokens {l : Language} {origin source : String} {limit : Option Nat}
    {t : Tree l.Rules} (h : l.parseTree origin source limit = .ok t) :
    (t.tokens.flatMap fun tok => tok.text.toList) = source.toList := by
  obtain ⟨_, ys, _, _, hys, htiles⟩ := Language.tokens_parseTree h
  rw [hys, List.flatMap_map, htiles.flatMap_text (Nat.le_refl _)]
  simp

/-- A root with two children: a token with a quote and a line feed in its text, and a production without children. -/
def Tree.pair : Tree String where
  nodes := #[.production "unit" #[⟨1⟩, ⟨2⟩], .token ⟨"STRING", "\"\n", 1, 0⟩, .production "part" #[]]
  size_pos := by decide

theorem Tree.grown_pair : Tree.pair.Grown := by
  refine ⟨_, _, .production (some ⟨0⟩) "part" (.token (some ⟨0⟩) ⟨"STRING", "\"\n", 1, 0⟩
    (.production none "unit" .start nofun) ?_) ?_, rfl⟩
  all_goals intro p hp; cases hp; decide

namespace Document

/-- **Documents are JSON.**  Parsed in the language of JSON without a limit on calls, the document of a
tree whose builder only used its own ids has a tree, in every layout, unless the parse runs out of
resources.  But for blanks, compact and pretty documents have the same tokens, and a compact one has no
blanks. -/
theorem parseTree_document (v : Vocabulary R) {t : Tree R} (h : t.Grown) (origin : String) :
    (∀ o : Options, (text v o t).toUTF8 = bytes v o t ∧
      ((∃ u, Language.json.parseTree origin (text v o t) none = .ok u) ∨
        ∃ reason, Language.json.parseTree origin (text v o t) none =
          .error (.exhausted .parsing reason))) ∧
    (∀ (s s' : Strategy) (u u' : Tree JsonRule),
      Language.json.parseTree origin (text v ⟨s, .compact⟩ t) none = .ok u →
      Language.json.parseTree origin (text v ⟨s', .pretty⟩ t) none = .ok u' →
        wordsOf (· == .WHITESPACE) u.tokens = wordsOf (· == .WHITESPACE) u'.tokens) ∧
    ∀ (s : Strategy) (u : Tree JsonRule),
      Language.json.parseTree origin (text v ⟨s, .compact⟩ t) none = .ok u →
        ∀ tok ∈ u.tokens, tok.kind ≠ .WHITESPACE := by
  obtain ⟨x, hx⟩ := h.isForest.exists_at t.size Tree.root (Nat.le_add_left _ _) t.size_pos
  have htext := isText_text v h.isForest hx
  refine ⟨fun o => ⟨(htext o).1, Language.parseTree_of_isText origin (htext o).2⟩, ?_, ?_⟩
  · intro s s' u u' hu hu'
    rw [JsonRule.wordsOf_parseTree hu (htext _).2, JsonRule.wordsOf_parseTree hu' (htext _).2]
  · intro s u hu tok htok hkind
    -- the leaves spell the whole source, so a token for blanks would be empty
    have hleaves : joined (wordsOf (· == .WHITESPACE) u.tokens) = (text v ⟨s, .compact⟩ t).toList := by
      rw [JsonRule.wordsOf_parseTree hu (htext _).2, toList_text_compact v h.isForest hx rfl]
      change Outline.spelling [Json.document (some (x.value v).json)] = _
      rw [Json.document, Outline.spelling_node, Outline.spelling_append, Outline.spelling_leaf]
      exact List.append_nil _
    have hsame : (u.tokens.flatMap fun tok => tok.text.toList) = (text v ⟨s, .compact⟩ t).toList :=
      Language.flatMap_text_tokens hu
    have hempty := eq_nil_of_skipped (· == .WHITESPACE) (by rw [hsame, hleaves]) tok htok
      (by rw [hkind]; rfl)
    exact JsonRule.text_ne_nil_of_whitespace hu htok hkind hempty

/-- Both documents of a root with two children have trees, with the same tokens but for blanks. -/
theorem parseTree_document_pair : Tree.pair.Grown ∧ ∃ u u' : Tree JsonRule,
    Language.json.parseTree "a.json" (text ⟨id⟩ ⟨.stream, .compact⟩ Tree.pair) none = .ok u ∧
    Language.json.parseTree "a.json" (text ⟨id⟩ ⟨.stream, .pretty⟩ Tree.pair) none = .ok u' ∧
    wordsOf (· == .WHITESPACE) u.tokens = wordsOf (· == .WHITESPACE) u'.tokens ∧
    ∀ tok ∈ u.tokens, tok.kind ≠ .WHITESPACE := by
  have hcompact : (Language.json.parseTree "a.json" (text ⟨id⟩ ⟨.stream, .compact⟩ Tree.pair)
      none).toOption.isSome = true := by decide +kernel
  have hpretty : (Language.json.parseTree "a.json" (text ⟨id⟩ ⟨.stream, .pretty⟩ Tree.pair)
      none).toOption.isSome = true := by decide +kernel
  obtain ⟨_, hsame, hblank⟩ := parseTree_document ⟨id⟩ Tree.grown_pair "a.json"
  obtain ⟨u, hu⟩ := Language.exists_parseTree hcompact
  obtain ⟨u', hu'⟩ := Language.exists_parseTree hpretty
  exact ⟨Tree.grown_pair, u, u', hu, hu', hsame _ _ u u' hu hu', hblank _ u hu⟩

end Document

end ConcreteSyntax
