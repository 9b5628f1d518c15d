import ConcreteSyntax.Proofs.Json.Tokens

/-! # What the JSON grammar reads is JSON

Every reading of the grammar moves over a text of RFC 8259: a value over a value
(`exists_spells_of_reads`), a whole source over a JSON text or over blanks alone
(`isText_of_reads_document`).

Arrays and objects have one shape (`listOf`), a list of values or of members between brackets, so they
are read by one lemma (`listed_of_reads`).  The rounds of such a list are followed by the length of the
text that is left. -/

namespace ConcreteSyntax

open Json

/-- Nothing is being looked ahead for and trivia is matched. -/
structure Context.IsPlain (c : Context) : Prop where
  free : c.atomicity = .free
  flat : c.lookahead = .none

theorem Context.IsPlain.keepsNodes {c : Context} (hc : c.IsPlain) : c.keepsNodes = true := by
  simp [Context.keepsNodes, hc.free, hc.flat]

namespace JsonRule

variable {c : Context} {s s' : State JsonRule} {o : Option (State JsonRule)}

/-! ### Shapes -/

/-- A comma and one more part of a list. -/
def nextItem (item : JsonRule) : Expr JsonRule := .group (.cat (.ref COMMA) (.ref item))

/-- The parts of a list, with commas between them. -/
def items (item : JsonRule) : Expr JsonRule := .group (.cat (.ref item) (.star (nextItem item)))

/-- Parts between two brackets. -/
def listOf (opening item closing : JsonRule) : Expr JsonRule :=
  .group (.cat (.ref opening) (.cat (.opt (items item)) (.ref closing)))

/-- What a value can be. -/
def valueRules : List JsonRule := [object, array, StringLiteral, NumberLiteral, TRUE, FALSE, NULL]

theorem rule_document : grammar.rule document =
    ⟨.normal, .group (.cat .startOfInput (.cat (.opt (.ref value)) (.ref EOI)))⟩ := rfl

theorem rule_value : grammar.rule value = ⟨.normal, .choice (valueRules.map .ref)⟩ := rfl

theorem rule_array : grammar.rule array = ⟨.normal, listOf LBRACK value RBRACK⟩ := rfl

theorem rule_object : grammar.rule object = ⟨.normal, listOf LBRACE member RBRACE⟩ := rfl

theorem rule_member : grammar.rule member =
    ⟨.normal, .group (.cat (.ref StringLiteral) (.cat (.ref COLON) (.ref value)))⟩ := rfl

/-! ### Blanks -/

/-- The state after so many blanks. -/
def skipped (s : State JsonRule) (n : Nat) : State JsonRule :=
  if n = 0 then s else s.token WHITESPACE n

theorem rest_skipped (s : State JsonRule) (n : Nat) : (skipped s n).rest = s.rest.drop n := by
  rw [skipped]
  split
  next h => rw [h]; rfl
  next => rfl

theorem reads_blanks (hc : c.IsPlain) {b rest : List Char} (hs : s.rest = b ++ rest) (hb : Blank b)
    (hrest : StartsTight rest) : grammar.Reads (.gap true) c s (some (skipped s b.length)) := by
  refine .gap_free hc.free ?_
  change grammar.Reads (.part false (.star (.ref WHITESPACE))) c s _
  have hmiss : ∀ s' : State JsonRule, s'.rest = rest →
      grammar.Reads (.part false (.ref WHITESPACE)) c s' none := by
    intro s' hs'
    refine .ref ((reads_token_none rfl hc.keepsNodes).mpr ?_)
    rw [hs']
    exact misses_whitespace hrest
  cases b with
  | nil => exact .star_none (hmiss s hs)
  | cons ch b =>
      have hdrop : (skipped s (ch :: b).length).rest = rest := by
        rw [rest_skipped, hs, List.drop_left]
      have htoken : grammar.Reads (.rule WHITESPACE) c s (some (skipped s (ch :: b).length)) := by
        refine (reads_token rfl hc.keepsNodes).mpr ⟨ch :: b, ?_, ?_, rfl⟩
        · rw [hdrop, hs]
        · rw [hdrop]
          exact takes_whitespace.mpr ⟨List.cons_ne_nil ch b, hb, hrest⟩
      exact .star_some (.ref htoken) (.rounds_end .gap_tight (hmiss _ hdrop))

theorem blank_takeWhile (cs : List Char) : Blank (cs.takeWhile isBlank) :=
  List.all_eq_true.mp List.all_takeWhile

theorem startsTight_dropWhile (cs : List Char) : StartsTight (cs.dropWhile isBlank) := by
  intro ch hch
  have h := List.head?_dropWhile_not isBlank cs
  rw [Option.mem_def.mp hch] at h
  exact h

theorem exists_blank_of_reads_gap (hc : c.IsPlain) (h : grammar.Reads (.gap true) c s (some s')) :
    ∃ b, Blank b ∧ s.rest = b ++ s'.rest ∧ StartsTight s'.rest := by
  have hs : s.rest = s.rest.takeWhile isBlank ++ s.rest.dropWhile isBlank :=
    List.takeWhile_append_dropWhile.symm
  have hread := reads_blanks hc hs (blank_takeWhile _) (startsTight_dropWhile _)
  obtain rfl := Option.some.inj (h.unique hread)
  have hrest : (skipped s (s.rest.takeWhile isBlank).length).rest = s.rest.dropWhile isBlank := by
    rw [rest_skipped]
    exact (congrArg (List.drop _) hs).trans List.drop_left
  rw [hrest]
  exact ⟨_, blank_takeWhile _, hs, startsTight_dropWhile _⟩

/-! ### Lists -/

theorem text_of_reads_fixed (hc : c.IsPlain) {r : JsonRule} {w : List Char}
    (hw : r.fixedText? = some w) (h : grammar.Reads (.part true (.ref r)) c s (some s')) :
    s.rest = w ++ s'.rest := by
  obtain ⟨u, hu, ht, _⟩ :=
    (reads_token (body_of_fixedText? hw).1 hc.keepsNodes).mp (Grammar.reads_ref.mp h)
  rw [hu, (takes_fixed hw).mp ht]

section Lists

variable {α : Type} {Q : α → List Char → Prop} {item : JsonRule}

/-- Every reading of a rule from a state with less than `n` characters left moves over a part. -/
def ReadsParts (c : Context) (item : JsonRule) (Q : α → List Char → Prop) (n : Nat) : Prop :=
  ∀ {s s' : State JsonRule}, s.rest.length < n → grammar.Reads (.rule item) c s (some s') →
    ∃ a w, Q a w ∧ s.rest = w ++ s'.rest

theorem mark_of_reads_nextItem (hc : c.IsPlain) {n : Nat} (hitem : ReadsParts c item Q n)
    (hn : s.rest.length ≤ n) (h : grammar.Reads (.part true (nextItem item)) c s (some s')) :
    ∃ b a w, Blank b ∧ Q a w ∧ s.rest = ',' :: (b ++ (w ++ s'.rest)) := by
  obtain ⟨s₁, s₂, h₁, h₂, h₃⟩ := Grammar.reads_cat_some.mp (Grammar.reads_group.mp h)
  have h₁ := text_of_reads_fixed hc (r := COMMA) rfl h₁
  obtain ⟨b, hb, h₂, _⟩ := exists_blank_of_reads_gap hc h₂
  have hlt : s₂.rest.length < n := by
    rw [h₁, h₂] at hn
    simp only [List.length_append, List.length_cons] at hn
    omega
  obtain ⟨a, w, ha, hw⟩ := hitem hlt (Grammar.reads_ref.mp h₃)
  exact ⟨b, a, w, hb, ha, by rw [h₁, h₂, hw]; rfl⟩

theorem continues_of_reads_rounds (hc : c.IsPlain) {n : Nat} (hitem : ReadsParts c item Q n) :
    ∀ (k : Nat) {s : State JsonRule} {o : Option (State JsonRule)}, s.rest.length < k → k ≤ n →
      grammar.Reads (.rounds true (nextItem item)) c s o →
      ∃ s' as t, o = some s' ∧ s.rest = t ++ s'.rest ∧ Continues Q as t := by
  intro k
  induction k with
  | zero => exact fun hk => absurd hk (Nat.not_lt_zero _)
  | succ k ih =>
      intro s o hk hkn h
      rcases Grammar.reads_rounds.mp h with ⟨_, rfl⟩ | ⟨s₁, h₁, ⟨_, rfl⟩ | ⟨s₂, h₂, h₃⟩⟩
      · exact ⟨s, [], [], rfl, rfl, continues_nil⟩
      · exact ⟨s, [], [], rfl, rfl, continues_nil⟩
      · obtain ⟨b, hb, hr₁, _⟩ := exists_blank_of_reads_gap hc h₁
        rw [hr₁, List.length_append] at hk
        obtain ⟨b', a, w, hb', ha, hr₂⟩ := mark_of_reads_nextItem hc hitem (by omega) h₂
        rw [hr₂] at hk
        simp only [List.length_append, List.length_cons] at hk
        obtain ⟨s', as, t, rfl, hr₃, ht⟩ := ih (by omega) (by omega) h₃
        refine ⟨s', a :: as, _, rfl, ?_, ht.more ⟨b, b', hb, hb', rfl⟩ ha⟩
        rw [hr₁, hr₂, hr₃]
        simp

/-- The blanks after the first part and the rounds continue a list, up to blanks. -/
theorem continues_of_reads_star (hc : c.IsPlain) {n : Nat} (hitem : ReadsParts c item Q n)
    (hn : s.rest.length < n) {b : List Char} (hb : Blank b)
    (h : grammar.Reads (.part true (.star (nextItem item))) c s (some s')) :
    ∃ as t b', Continues Q as t ∧ Blank b' ∧ b ++ s.rest = t ++ (b' ++ s'.rest) := by
  rcases Grammar.reads_star.mp h with ⟨s₁, h₁, h₂⟩ | ⟨_, hs⟩
  · obtain ⟨b₁, a, w, hb₁, ha, hr₁⟩ := mark_of_reads_nextItem hc hitem (by omega) h₁
    have hlt : s₁.rest.length < n := by
      rw [hr₁] at hn
      simp only [List.length_append, List.length_cons] at hn
      omega
    obtain ⟨_, as, t, hs', hr₂, ht⟩ := continues_of_reads_rounds hc hitem n hlt (Nat.le_refl n) h₂
    cases hs'
    refine ⟨a :: as, _, [], ht.more ⟨b, b₁, hb, hb₁, rfl⟩ ha, nofun, ?_⟩
    rw [hr₁, hr₂]
    simp
  · cases hs
    exact ⟨[], [], b, continues_nil, hb, rfl⟩

theorem items_of_reads (hc : c.IsPlain) {n : Nat} (hitem : ReadsParts c item Q n) (hn : s.rest.length < n)
    (h : grammar.Reads (.part true (items item)) c s (some s')) :
    ∃ as m b, Items Q as m ∧ Blank b ∧ s.rest = m ++ (b ++ s'.rest) := by
  obtain ⟨t₁, t₂, hi, hg, hstar⟩ := Grammar.reads_cat_some.mp (Grammar.reads_group.mp h)
  obtain ⟨a, w, ha, hw⟩ := hitem hn (Grammar.reads_ref.mp hi)
  obtain ⟨b₁, hb₁, hg, _⟩ := exists_blank_of_reads_gap hc hg
  have hlt : t₂.rest.length < n := by
    rw [hw, hg] at hn
    simp only [List.length_append] at hn
    omega
  obtain ⟨as, t, b, has, hb, ht⟩ := continues_of_reads_star hc hitem hlt hb₁ hstar
  refine ⟨a :: as, _, b, has a w ha, hb, ?_⟩
  rw [hw, hg, ht]
  simp

theorem listed_of_reads (hc : c.IsPlain) {n : Nat} (hitem : ReadsParts c item Q n)
    {opening closing : JsonRule} {l r : Char} (hl : opening.fixedText? = some [l])
    (hr : closing.fixedText? = some [r])
    (h : grammar.Reads (.part true (listOf opening item closing)) c s (some s'))
    (hn : s.rest.length ≤ n) :
    ∃ as w, Listed l r Q as w ∧ s.rest = w ++ s'.rest := by
  obtain ⟨s₁, s₂, h₁, h₂, h⟩ := Grammar.reads_cat_some.mp (Grammar.reads_group.mp h)
  obtain ⟨s₃, s₄, h₃, h₄, h₅⟩ := Grammar.reads_cat_some.mp h
  have hr₁ := text_of_reads_fixed hc hl h₁
  obtain ⟨b, hb, hr₂, _⟩ := exists_blank_of_reads_gap hc h₂
  obtain ⟨b', hb', hr₄, _⟩ := exists_blank_of_reads_gap hc h₄
  have hr₅ := text_of_reads_fixed hc hr h₅
  have hopen : Mark l (l :: b) := ⟨[], b, nofun, hb, rfl⟩
  rcases Grammar.reads_opt.mp h₃ with ⟨_, h₃, hs⟩ | ⟨_, hs⟩
  · cases hs
    have hlt : s₂.rest.length < n := by
      rw [hr₁, hr₂] at hn
      simp only [List.length_append, List.length_singleton] at hn
      omega
    obtain ⟨as, m, b₂, hm, hb₂, ht⟩ := items_of_reads hc hitem hlt h₃
    have hclose : Mark r (b₂ ++ b' ++ [r]) :=
      ⟨b₂ ++ b', [], List.forall_mem_append.mpr ⟨hb₂, hb'⟩, nofun, rfl⟩
    refine ⟨as, _, .items hopen hm hclose, ?_⟩
    rw [hr₁, hr₂, ht, hr₄, hr₅]
    simp
  · cases hs
    have hclose : Mark r (b' ++ [r]) := ⟨b', [], hb', nofun, rfl⟩
    refine ⟨[], _, .empty hopen hclose, ?_⟩
    rw [hr₁, hr₂, hr₄, hr₅]
    simp

end Lists

/-! ### Values -/

theorem readsParts_member (hc : c.IsPlain) {n : Nat} (hvalue : ReadsParts c value Spells n) :
    ReadsParts c member (Member Spells) n := by
  intro s s' hn h
  obtain ⟨t, hbody, rfl⟩ := (Grammar.reads_normal_some rule_member).mp h
  obtain ⟨s₁, s₂, h₁, h₂, h⟩ := Grammar.reads_cat_some.mp (Grammar.reads_group.mp hbody)
  obtain ⟨s₃, s₄, h₃, h₄, h₅⟩ := Grammar.reads_cat_some.mp h
  obtain ⟨k, hk, htk, _⟩ := (reads_token rfl hc.keepsNodes).mp (Grammar.reads_ref.mp h₁)
  obtain ⟨b, hb, hr₂, _⟩ := exists_blank_of_reads_gap hc h₂
  have hr₃ := text_of_reads_fixed hc (r := COLON) rfl h₃
  obtain ⟨b', hb', hr₄, _⟩ := exists_blank_of_reads_gap hc h₄
  have hs : s.rest = k ++ (b ++ ':' :: (b' ++ s₄.rest)) := by
    rw [show s.rest = k ++ s₁.rest from hk, hr₂, hr₃, hr₄]
    simp
  have hlt : s₄.rest.length < n := by
    rw [hs] at hn
    simp only [List.length_append, List.length_cons] at hn
    omega
  obtain ⟨j, w, hj, hw⟩ := hvalue hlt (Grammar.reads_ref.mp h₅)
  refine ⟨(k, j), _, .mk (takes_string.mp htk) ⟨b, b', hb, hb', rfl⟩ hj, ?_⟩
  rw [hs, hw]
  simp [State.close]

/-- What is read for a value is a value. -/
theorem exists_spells_of_reads (hc : c.IsPlain) (n : Nat) : ReadsParts c value Spells n := by
  induction n with
  | zero => exact fun hn => absurd hn (Nat.not_lt_zero _)
  | succ n ih =>
      intro s s' hn h
      obtain ⟨t, hbody, rfl⟩ := (Grammar.reads_normal_some rule_value).mp h
      obtain ⟨e, he, h⟩ := Grammar.exists_reads_of_choice hbody
      obtain ⟨r, hr, rfl⟩ := List.mem_map.mp he
      have hfixed : ∀ w, r.fixedText? = some w → s.rest = w ++ t.rest := by
        intro w hw
        have := text_of_reads_fixed hc hw h
        exact this
      rw [Grammar.reads_ref] at h
      have hle : s.rest.length ≤ n := Nat.le_of_lt_succ hn
      simp only [valueRules, List.mem_cons, List.not_mem_nil, or_false] at hr
      rcases hr with rfl | rfl | rfl | rfl | rfl | rfl | rfl
      · obtain ⟨t, hlist, rfl⟩ := (Grammar.reads_normal_some rule_object).mp h
        obtain ⟨ms, w, hms, hw⟩ :=
          listed_of_reads hc (readsParts_member hc ih) (l := '{') (r := '}') rfl rfl hlist hle
        exact ⟨.object ms, w, .object hms, hw⟩
      · obtain ⟨t, hlist, rfl⟩ := (Grammar.reads_normal_some rule_array).mp h
        obtain ⟨js, w, hjs, hw⟩ := listed_of_reads hc ih (l := '[') (r := ']') rfl rfl hlist hle
        exact ⟨.array js, w, .array hjs, hw⟩
      · obtain ⟨w, hw, ht, _⟩ := (reads_token rfl hc.keepsNodes).mp h
        exact ⟨.string w, w, .string (takes_string.mp ht), hw⟩
      · obtain ⟨w, hw, ht, _⟩ := (reads_token rfl hc.keepsNodes).mp h
        exact ⟨.number w, w, .number (isNumber_of_takes ht), hw⟩
      · exact ⟨.bool true, _, .bool true, hfixed _ rfl⟩
      · exact ⟨.bool false, _, .bool false, hfixed _ rfl⟩
      · exact ⟨.null, _, .null, hfixed _ rfl⟩

/-- What is read as a whole source is blank or a JSON text. -/
theorem isText_of_reads_document (hc : c.IsPlain) {source : List Char}
    (h : grammar.Reads (.rule document) c (Grammar.initialState source) (some s')) :
    Blank source ∨ ∃ j : Json, j.IsText source := by
  obtain ⟨t, hbody, rfl⟩ := (Grammar.reads_normal_some rule_document).mp h
  obtain ⟨s₁, s₂, h₁, h₂, h⟩ := Grammar.reads_cat_some.mp (Grammar.reads_group.mp hbody)
  obtain ⟨s₃, s₄, h₃, h₄, h₅⟩ := Grammar.reads_cat_some.mp h
  have hs₁ := Option.some.inj ((Grammar.reads_leaf rfl).mp h₁)
  obtain ⟨b, hb, hr₂, _⟩ := exists_blank_of_reads_gap hc h₂
  obtain ⟨b', hb', hr₄, _⟩ := exists_blank_of_reads_gap hc h₄
  have hend : s₄.rest = [] := by
    obtain ⟨s₅, h₅, _⟩ := (Grammar.reads_normal_some (e := .endOfInput) rfl).mp
      (Grammar.reads_ref.mp h₅)
    have h₅ : some s₅ = if s₄.rest.isEmpty then _ else _ := (Grammar.reads_leaf rfl).mp h₅
    cases hr : s₄.rest with
    | nil => rfl
    | cons ch cs =>
        rw [hr] at h₅
        cases h₅
  have hsource : source = b ++ s₂.rest := by
    rw [← hr₂, hs₁]
    rfl
  rw [hend, List.append_nil] at hr₄
  rcases Grammar.reads_opt.mp h₃ with ⟨_, h₃, hs⟩ | ⟨_, hs⟩
  · cases hs
    obtain ⟨j, w, hj, hw⟩ := exists_spells_of_reads hc (s₂.rest.length + 1) (Nat.lt_succ_self _)
      (Grammar.reads_ref.mp h₃)
    exact .inr ⟨j, b, w, b', hb, hj, hb', by rw [hsource, hw, hr₄]⟩
  · cases hs
    refine .inl ?_
    rw [hsource, hr₄]
    exact List.forall_mem_append.mpr ⟨hb, hb'⟩

end JsonRule

end ConcreteSyntax
