import ConcreteSyntax.Proofs.Layers
import ConcreteSyntax.Proofs.Tree.Addresses

/-! # Lines of HCL

A line end is a token of its own in a body and part of a blank between brackets.  Which of the two it is
depends on the marks: brackets push one when they open and drop it when they close.

* **Items** (`HclRule.separate`).  An item of a body ends with its line, or the input stops there: it is
  used up or goes on with a closing brace.  Nothing that a body could go on with begins so
  (`HclRule.not_reads_opener`, by first characters), so no second item follows on the same line.
* **Brackets** (`HclRule.Bracketed`).  Where there are no marks, a production without brackets reads its
  parts without marks, and one with brackets leaves an opening bracket, what stands between, and a closing
  one last.  Going down from the root, the marks stay empty until an address leads between brackets.
* **Blanks** (`HclRule.blank_of_left`).  Without marks a blank consists of spaces and tabs.
* **Expressions** (`HclRule.inner`).  The rules of expressions do not lead back to bodies and line ends.

`Language.lines_parseTree` puts these together for the whole tree. -/

namespace ConcreteSyntax

open Grammar (reads_ref reads_group reads_cat_some reads_star reads_ahead reads_silent
  reads_normal_some exists_reads_of_choice)

/-! ### First characters -/

section FirstCharacters

variable {R : Type} {g : Grammar R} {idle known : R → Bool} {ch : Char}

/-- Whether an expression has the empty word only, given some silent rules that do. -/
def Expr.idles (idle : R → Bool) : Expr R → Bool
  | .word w => w.isEmpty
  | .startOfInput | .endOfInput | .ahead _ | .notAhead _ | .peek | .pop | .drop => true
  | .ref r => idle r
  | .cat e₁ e₂ | .alt e₁ e₂ => e₁.idles idle && e₂.idles idle
  | .group e | .opt e | .star e | .mark e => e.idles idle
  | .caseless _ | .char _ | .upTo _ => false

/-- Whether all words of an expression begin with a character other than this one, given some silent
rules of which that is known. -/
def Expr.shuns (ch : Char) (idle known : R → Bool) : Expr R → Bool
  | .word w => w.head?.any (· ≠ ch)
  | .char k => !k.mem ch
  | .ref r => known r
  | .cat e₁ e₂ => e₁.shuns ch idle known || (e₁.idles idle && e₂.shuns ch idle known)
  | .alt e₁ e₂ => e₁.shuns ch idle known && e₂.shuns ch idle known
  | .group e => e.shuns ch idle known
  | _ => false

theorem Grammar.Derives.eq_nil (hidle : ∀ r, idle r = true → (g.rule r).kind = .silent ∧
    (g.rule r).body.idles idle = true) {e : Expr R} {w : List (Symbol R)} (h : g.Derives none e w) :
    e.idles idle = true → w = [] := by
  induction h with
  | word =>
      intro he
      rw [List.isEmpty_iff.mp he]
      rfl
  | silent _ _ ih => intro he; exact ih (hidle _ he).2
  | rule hk => intro he; exact absurd (hidle _ he).1 hk
  | cat _ _ ih₁ ih₂ =>
      intro he
      obtain ⟨he₁, he₂⟩ := Bool.and_eq_true_iff.mp he
      rw [ih₁ he₁, ih₂ he₂]
      rfl
  | alt_left _ ih => intro he; exact ih (Bool.and_eq_true_iff.mp he).1
  | alt_right _ ih => intro he; exact ih (Bool.and_eq_true_iff.mp he).2
  | group _ ih | opt_some _ ih | mark _ _ ih => exact ih
  | star_cons _ _ ih₁ ih₂ => intro he; rw [ih₁ he, ih₂ he]; rfl
  | caseless | char | upTo => nofun
  | _ => intro _; rfl

theorem Grammar.Derives.head_ne (hidle : ∀ r, idle r = true → (g.rule r).kind = .silent ∧
    (g.rule r).body.idles idle = true) (hknown : ∀ r, known r = true → (g.rule r).kind = .silent ∧
    (g.rule r).body.shuns ch idle known = true) {e : Expr R} {w : List (Symbol R)}
    (h : g.Derives none e w) : e.shuns ch idle known = true →
      ∃ x w', w = .char x :: w' ∧ x ≠ ch := by
  induction h with
  | @word w =>
      intro he
      cases w with
      | nil => cases he
      | cons x w => exact ⟨x, w.map .char, rfl, by simpa [Expr.shuns] using he⟩
  | @char k x hk =>
      intro he
      refine ⟨x, [], rfl, ?_⟩
      rintro rfl
      rw [Expr.shuns, hk] at he
      cases he
  | silent _ _ ih => intro he; exact ih (hknown _ he).2
  | rule hk => intro he; exact absurd (hknown _ he).1 hk
  | @cat e₁ e₂ u v hu _ ih₁ ih₂ =>
      intro he
      rcases Bool.or_eq_true_iff.mp he with he | he
      · obtain ⟨x, w', rfl, hx⟩ := ih₁ he
        exact ⟨x, w' ++ v, rfl, hx⟩
      · obtain ⟨he₁, he₂⟩ := Bool.and_eq_true_iff.mp he
        rw [hu.eq_nil hidle he₁]
        exact ih₂ he₂
  | alt_left _ ih => intro he; exact ih (Bool.and_eq_true_iff.mp he).1
  | alt_right _ ih => intro he; exact ih (Bool.and_eq_true_iff.mp he).2
  | group _ ih => exact ih
  | _ => nofun

end FirstCharacters

namespace HclRule

variable {c : Context} {s s' : State HclRule}

/-! ### Separated items -/

def isItem : HclRule → Bool
  | attributeEntry | block => true
  | _ => false

/-- Whether an item may come after these rules, given whether one might come before them; none if an item
came where it might not.  After an item the next one has to wait for a line end. -/
def separate : Bool → List HclRule → Option Bool
  | free, [] => some free
  | free, r :: rs =>
    if r = Newline then separate true rs
    else if isItem r then if free then separate false rs else none
    else separate free rs

theorem separate_append (free : Bool) (rs rs' : List HclRule) :
    separate free (rs ++ rs') = (separate free rs).bind fun free => separate free rs' := by
  induction rs generalizing free with
  | nil => rfl
  | cons r rs ih =>
      rw [List.cons_append, separate, separate]
      split
      · exact ih true
      · split
        · split
          · exact ih false
          · rfl
        · exact ih free

theorem separate_filter (free : Bool) (rs : List HclRule) :
    separate free (rs.filter fun r => !blanks.contains r) = separate free rs := by
  induction rs generalizing free with
  | nil => rfl
  | cons r rs ih =>
      by_cases hr : blanks.contains r = true
      · have hblank : r ≠ Newline ∧ isItem r = false := by
          rcases List.mem_cons.mp (List.contains_iff_mem.mp hr) with rfl | hr
          · decide
          · rcases List.mem_singleton.mp hr with rfl
            decide
        rw [List.filter_cons_of_neg (by rw [hr]; nofun), ih, separate, if_neg hblank.1]
        rw [if_neg (by rw [hblank.2]; nofun)]
      · rw [List.filter_cons_of_pos (by simpa using hr), separate, separate]
        simp only [ih]

/-- Where an item may come again, a line end was there. -/
theorem newline_mem_of_separate {rs : List HclRule} (h : separate false rs = some true) :
    Newline ∈ rs := by
  induction rs with
  | nil => cases h
  | cons r rs ih =>
      rw [separate] at h
      split at h
      next hr => exact hr ▸ List.mem_cons_self
      next =>
        split at h
        next => cases h
        next => exact List.mem_cons_of_mem r (ih h)

theorem separate_item {free free' : Bool} {r : HclRule} {rs : List HclRule} (hr : isItem r = true)
    (h : separate free (r :: rs) = some free') : free = true ∧ separate false rs = some free' := by
  have hne : r ≠ Newline := by
    rintro rfl
    cases hr
  rw [separate, if_neg hne, if_pos hr] at h
  split at h
  next hfree => exact ⟨hfree, h⟩
  next => cases h

theorem newline_mem_between {free free' : Bool} {before mid after : List HclRule} {r r' : HclRule}
    (h : separate free (before ++ r :: mid ++ r' :: after) = some free') (hr : isItem r = true)
    (hr' : isItem r' = true) : Newline ∈ mid := by
  rw [separate_append, separate_append] at h
  obtain ⟨free₂, h₂, hafter⟩ := Option.bind_eq_some_iff.mp h
  obtain ⟨free₁, _, hmid⟩ := Option.bind_eq_some_iff.mp h₂
  obtain ⟨rfl, _⟩ := separate_item hr' hafter
  exact newline_mem_of_separate (separate_item hr hmid).2

/-! ### Stops -/

/-- The input is used up or goes on with a closing brace. -/
def Stopped (s : State HclRule) : Prop := ∀ ch rest, s.rest = ch :: rest → ch = '}'

/-- Trivia and what a body or an item begins with. -/
def openers : List HclRule := [Newline, Identifier, WHITESPACE, COMMENT]

theorem idles_nested (r : HclRule) (hr : [nested].contains r = true) :
    (grammar.rule r).kind = .silent ∧ (grammar.rule r).body.idles [nested].contains = true := by
  rcases List.mem_singleton.mp (List.contains_iff_mem.mp hr) with rfl
  exact ⟨rfl, rfl⟩

theorem shuns_openers {r : HclRule} (hr : r ∈ identStart :: openers) :
    (grammar.rule r).body.shuns '}' [nested].contains [identStart].contains = true := by
  have hall : (identStart :: openers).all (fun r =>
      (grammar.rule r).body.shuns '}' [nested].contains [identStart].contains) = true := by
    decide +kernel
  exact List.all_eq_true.mp hall r hr

theorem shuns_identStart (r : HclRule) (hr : [identStart].contains r = true) :
    (grammar.rule r).kind = .silent ∧
      (grammar.rule r).body.shuns '}' [nested].contains [identStart].contains = true := by
  rcases List.mem_singleton.mp (List.contains_iff_mem.mp hr) with rfl
  exact ⟨rfl, shuns_openers List.mem_cons_self⟩

theorem of_mem_openers {r : HclRule} (hr : r ∈ openers) :
    lexical.contains r = false ∧ Vocabulary.isTerminal ⟨name⟩ r = true ∧ loose.contains r = false := by
  simp only [openers, List.mem_cons, List.not_mem_nil, or_false] at hr
  rcases hr with rfl | rfl | rfl | rfl <;> exact ⟨rfl, layered.terminal_of_atomic rfl rfl, rfl⟩

theorem not_reads_opener {r : HclRule} (hr : r ∈ openers) (hs : Stopped s)
    (hm : ∀ w ∈ s.marks, w = []) : ¬ grammar.Reads (.rule r) c s (some s') := by
  intro h
  obtain ⟨hl, hv, hloose⟩ := of_mem_openers hr
  obtain ⟨w, hrest, hw⟩ := layered.text_of_reads hl hv hloose hm h none
  obtain ⟨ch, w', hcons, hch⟩ :=
    hw.head_ne idles_nested shuns_identStart (shuns_openers (List.mem_cons_of_mem _ hr))
  cases w with
  | nil => cases hcons
  | cons x w =>
      cases hcons
      exact hch (hs ch (w ++ s'.rest) hrest)

theorem eq_of_reads_star_opener {b : Bool} {e : Expr HclRule} {o : Option (State HclRule)}
    (he : ∀ s', ¬ grammar.Reads (.part b e) c s (some s'))
    (h : grammar.Reads (.part b (.star e)) c s o) : o = some s := by
  rcases reads_star.mp h with ⟨s₁, h₁, _⟩ | ⟨_, rfl⟩
  · exact absurd h₁ (he s₁)
  · rfl

theorem eq_of_reads_gap (hs : Stopped s) (hm : ∀ w ∈ s.marks, w = [])
    (h : grammar.Reads (.gap true) c s (some s')) : s' = s := by
  cases h with
  | gap_closed => rfl
  | gap_free _ h =>
      obtain ⟨s₁, s₂, h₁, hgap, h₂⟩ := reads_cat_some.mp (reads_group.mp h)
      cases Grammar.reads_gap_tight.mp hgap
      cases eq_of_reads_star_opener (fun s' h => not_reads_opener (by decide) hs hm (reads_ref.mp h)) h₁
      refine Option.some.inj (eq_of_reads_star_opener (fun s' h => ?_) h₂)
      obtain ⟨_, _, hcomment, _⟩ := reads_cat_some.mp (reads_group.mp h)
      exact not_reads_opener (by decide) hs hm (reads_ref.mp hcomment)

/-! ### Bodies -/

/-- One round of a body. -/
def bodyRound : Expr HclRule :=
  .choice [.ref Newline, .seq [.ref attributeEntry, .ref itemEnd], .seq [.ref block, .ref itemEnd]]

theorem rule_body : grammar.rule body = ⟨.normal, .star bodyRound⟩ := rfl

theorem not_reads_item {r : HclRule} (hr : isItem r = true) (hs : Stopped s)
    (hm : ∀ w ∈ s.marks, w = []) : ¬ grammar.Reads (.rule r) c s (some s') := by
  intro h
  have hname : ∃ e, grammar.rule r = ⟨.normal, .group (.cat (.ref Identifier) e)⟩ := by
    cases r with
    | attributeEntry | block => exact ⟨_, rfl⟩
    | _ => cases hr
  obtain ⟨e, he⟩ := hname
  obtain ⟨s₁, hbody, _⟩ := (reads_normal_some he).mp h
  obtain ⟨s₂, _, hid, _⟩ := reads_cat_some.mp (reads_group.mp hbody)
  exact not_reads_opener (s := { s with nodes := [] }) (by decide) hs hm (reads_ref.mp hid)

theorem not_reads_bodyRound (hs : Stopped s) (hm : ∀ w ∈ s.marks, w = []) :
    ¬ grammar.Reads (.part true bodyRound) c s (some s') := by
  intro h
  obtain ⟨e, he, h⟩ := exists_reads_of_choice h
  simp only [List.mem_cons, List.not_mem_nil, or_false] at he
  rcases he with rfl | rfl | rfl
  · exact not_reads_opener (by decide) hs hm (reads_ref.mp h)
  · obtain ⟨_, _, hitem, _⟩ := reads_cat_some.mp (reads_group.mp h)
    exact not_reads_item (by decide) hs hm (reads_ref.mp hitem)
  · obtain ⟨_, _, hitem, _⟩ := reads_cat_some.mp (reads_group.mp h)
    exact not_reads_item (by decide) hs hm (reads_ref.mp hitem)

theorem stopped_of_reads_rbrace (h : grammar.Reads (.rule RBRACE) c s (some s')) : Stopped s := by
  obtain ⟨o, hbody, ho⟩ := (Grammar.reads_named (k := .atomic) (e := .word ['}']) rfl nofun).mp h
  obtain ⟨s₁, rfl, _⟩ := Option.map_eq_some_iff.mp ho.symm
  obtain ⟨rest, hrest, _⟩ := State.strip?_eq_some ((Grammar.reads_leaf rfl).mp hbody).symm
  intro ch rest' hr
  rw [show s.rest = ['}'] ++ rest from hrest] at hr
  cases hr
  rfl

theorem stopped_of_reads_end (h : grammar.Reads (.rule EOI) c s (some s')) : Stopped s := by
  obtain ⟨s₁, hbody, _⟩ := (reads_normal_some (e := .endOfInput) rfl).mp h
  cases hbody with
  | leaf h =>
      obtain ⟨w, ms, rest, hread, _⟩ := Expr.leafReads_of_leaf? h
      cases hread with
      | endOfInput hnil =>
          intro ch rest' hr
          rw [show s.rest = [] from hnil] at hr
          cases hr

/-- An item ends with its line, unless the input stops after it. -/
theorem adds_item {r : HclRule} (hr : isItem r = true) (hc : c.keepsNodes = true)
    (h : grammar.Reads (.part true (.seq [.ref r, .ref itemEnd])) c s (some s')) :
    s.Adds blanks.contains s' [r, Newline] ∨ s.Adds blanks.contains s' [r] ∧ Stopped s' := by
  obtain ⟨s₁, s₂, hitem, hgap, hend⟩ := reads_cat_some.mp (reads_group.mp h)
  have hadds : s.Adds blanks.contains s₂ ([r] ++ []) := by
    obtain ⟨_, hblank, rfl⟩ := layered.names hgap s₂ rfl hc rfl
    refine (layered.adds_ref ?_ ?_ hc hitem).trans hblank
    · cases r with
      | attributeEntry | block => decide
      | _ => cases hr
    · cases r with
      | attributeEntry | block => nofun
      | _ => cases hr
  obtain ⟨e, he, hend⟩ := exists_reads_of_choice ((reads_silent rfl).mp (reads_ref.mp hend))
  simp only [List.mem_cons, List.not_mem_nil, or_false] at he
  rcases he with rfl | rfl | rfl
  · exact .inl (hadds.trans (layered.adds_ref (by decide) nofun hc hend))
  · rcases reads_ahead.mp hend with ⟨s₃, hbrace, heq⟩ | ⟨_, hnone⟩
    · cases heq
      exact .inr ⟨hadds, stopped_of_reads_rbrace (reads_ref.mp hbrace)⟩
    · cases hnone
  · rcases reads_ahead.mp hend with ⟨s₃, heoi, heq⟩ | ⟨_, hnone⟩
    · cases heq
      exact .inr ⟨hadds, stopped_of_reads_end (reads_ref.mp heoi)⟩
    · cases hnone

/-- A round of a body leaves a line end, an item with its line end, or an item where the input stops. -/
theorem adds_bodyRound (hc : c.keepsNodes = true)
    (h : grammar.Reads (.part true bodyRound) c s (some s')) : ∃ rs, s.Adds blanks.contains s' rs ∧
      (separate true rs = some true ∨ separate true rs = some false ∧ Stopped s') := by
  obtain ⟨e, he, h⟩ := exists_reads_of_choice h
  simp only [List.mem_cons, List.not_mem_nil, or_false] at he
  rcases he with rfl | rfl | rfl
  · exact ⟨[Newline], layered.adds_ref (by decide) nofun hc h, .inl rfl⟩
  · rcases adds_item rfl hc h with hadds | ⟨hadds, hstop⟩
    · exact ⟨_, hadds, .inl rfl⟩
    · exact ⟨_, hadds, .inr ⟨rfl, hstop⟩⟩
  · rcases adds_item rfl hc h with hadds | ⟨hadds, hstop⟩
    · exact ⟨_, hadds, .inl rfl⟩
    · exact ⟨_, hadds, .inr ⟨rfl, hstop⟩⟩

theorem adds_append {s₁ : State HclRule} {rs₁ : List HclRule} (hfirst : s.Adds blanks.contains s₁ rs₁)
    (hrs₁ : separate true rs₁ = some true ∨ separate true rs₁ = some false ∧ Stopped s₁)
    (hsame : Stopped s₁ → s' = s₁)
    (hrest : ∃ rs, s₁.Adds blanks.contains s' rs ∧ (separate true rs).isSome = true) :
    ∃ rs, s.Adds blanks.contains s' rs ∧ (separate true rs).isSome = true := by
  rcases hrs₁ with hopen | ⟨hclosed, hstop⟩
  · obtain ⟨rs, hadds, hrs⟩ := hrest
    refine ⟨rs₁ ++ rs, hfirst.trans hadds, ?_⟩
    rw [separate_append, hopen]
    exact hrs
  · cases hsame hstop
    exact ⟨rs₁, hfirst, by rw [hclosed]; rfl⟩

/-- The rounds of a body keep its items apart.  The induction is on the rounds; after an item without a
line end there is none. -/
theorem adds_bodyRounds {t : Task HclRule} {o : Option (State HclRule)} (hc : c.keepsNodes = true)
    (h : grammar.Reads t c s o) : ∀ s', t = .rounds true bodyRound → o = some s' →
      (∀ w ∈ s.marks, w = []) → (Stopped s → s' = s) ∧
      ∃ rs, s.Adds blanks.contains s' rs ∧ (separate true rs).isSome = true := by
  induction h with
  | round hgap hround _ _ _ ih =>
      intro s' ht ho hm
      cases ht
      have hm₁ := shifts.marks_empty layered.closed hgap _ rfl rfl hm
      have hm₂ := shifts.marks_empty layered.closed hround _ rfl rfl hm₁
      obtain ⟨hsame, hrest⟩ := ih hc s' rfl ho hm₂
      refine ⟨fun hstop => ?_, ?_⟩
      · cases eq_of_reads_gap hstop hm hgap
        exact absurd hround (not_reads_bodyRound hstop hm)
      · obtain ⟨_, hblank, rfl⟩ := layered.names hgap _ rfl hc rfl
        obtain ⟨rs₁, hfirst, hrs₁⟩ := adds_bodyRound hc hround
        exact adds_append (hblank.trans hfirst) hrs₁ hsame hrest
  | rounds_end | rounds_gap =>
      intro s' _ ho _
      cases ho
      exact ⟨fun _ => rfl, [], .of_eq rfl, rfl⟩
  | _ => nofun

theorem separate_body {source : List Char} {m : Match HclRule}
    (hm : m.Left grammar (State.Unmarked source)) (hr : m.rule = body) :
    (separate true (m.parts.map Match.rule)).isSome = true := by
  obtain @⟨_, k, e, c, s, s', hrule, _, hc, hs, h⟩ := hm
  obtain rfl : _ = body := hr
  cases rule_body.symm.trans hrule
  have hadds : ∃ rs, State.Adds blanks.contains { s with nodes := [] } s' rs ∧
      (separate true rs).isSome = true := by
    rcases reads_star.mp h with ⟨s₁, hround, hrounds⟩ | ⟨_, heq⟩
    · have hm₁ := shifts.marks_empty layered.closed hround s₁ rfl rfl hs.2
      obtain ⟨hsame, hrest⟩ := adds_bodyRounds hc hrounds s' rfl rfl hm₁
      obtain ⟨rs₁, hfirst, hrs₁⟩ := adds_bodyRound hc hround
      exact adds_append hfirst hrs₁ hsame hrest
    · cases heq
      exact ⟨[], .of_eq rfl, rfl⟩
  obtain ⟨rs, ⟨new, hn, hnew⟩, hrs⟩ := hadds
  rw [List.append_nil] at hn
  rw [Match.parts, hn, ← separate_filter, hnew]
  exact hrs

/-! ### Brackets -/

/-- The brackets between which a production may hold blanks over several lines. -/
def brackets : HclRule → Option (HclRule × HclRule)
  | primary | functionCall => some (LPAREN, RPAREN)
  | tuple | forTupleExpr | index => some (LBRACK, RBRACK)
  | object | forObjectExpr => some (LBRACE, RBRACE)
  | _ => none

/-- All rules but those inside terminals and those that open and close brackets. -/
def flat (r : HclRule) : Bool := !lexical.contains r && r ≠ nestOpen && r ≠ nestClose

/-- A state of a source where no bracket is open. -/
def Outside (source : List Char) (s : State HclRule) : Prop := s.In source ∧ s.marks = []

/-- Outside terminals and brackets, rules refer to rules outside terminals and brackets. -/
theorem refers_flat {r : HclRule} (hr : flat r = true) (hk : (grammar.rule r).kind ≠ .atomic)
    (hb : brackets r = none) : (grammar.rule r).body.refers false flat = true := by
  have h := forall_of_all mem_all (p := fun r => !flat r || (grammar.rule r).kind = .atomic ||
    (brackets r).isSome || (grammar.rule r).body.refers false flat) (by decide +kernel) r
  simpa [hr, hk, hb] using h

theorem closed_flat : grammar.Closed false flat where
  trivia := rfl
  silent r hr hk := by
    refine refers_flat hr (by rw [hk]; nofun) ?_
    cases r with
    | primary | functionCall | tuple | forTupleExpr | index | object | forObjectExpr => cases hk
    | _ => rfl

theorem lexical_of_flat {r : HclRule} (hr : flat r = true) : lexical.contains r = false := by
  simp only [flat, Bool.and_eq_true, Bool.not_eq_true'] at hr
  exact hr.1.1

theorem shift_flat {r : HclRule} (hr : flat r = true) : shift r = .still := by
  cases r with
  | nestOpen | nestClose => cases hr
  | _ => rfl

theorem keeps_outside (source : List Char) : grammar.Keeps false flat (Outside source) := by
  intro t c s s' ht h hs
  refine ⟨hs.1.advances (h.advances s' rfl), ?_⟩
  rw [shifts.marks_eq_of_refers (fun r => shift_flat) ht h]
  exact hs.2

theorem flat_production {r : HclRule} (hr : flat r = true) (hv : Vocabulary.isTerminal ⟨name⟩ r = false)
    (hb : brackets r = none) :
    (grammar.rule r).kind ≠ .atomic ∧ (grammar.rule r).body.refers false flat = true := by
  obtain ⟨hk, _⟩ := layered.production (lexical_of_flat hr) hv
  exact ⟨hk, refers_flat hr hk hb⟩

/-- A production that may have brackets is, or has as its last alternative, a sequence with an opening
bracket that ends with a closing one.  What comes before is read where the production is. -/
theorem shape_of_brackets {r opening closing : HclRule} (h : brackets r = some (opening, closing)) :
    ∃ es pre mid, grammar.rule r =
        ⟨.normal, .choice (es ++ [.seq (pre ++ .ref opening :: (mid ++ [.ref closing]))])⟩ ∧
      (es ++ pre).all (fun e => e.refers false flat) = true := by
  cases r with
  | primary =>
      cases h
      exact ⟨[.ref literalValue, .ref forExpr, .ref collectionValue, .ref templateExpr, .ref functionCall,
        .ref variableUse], [], [_, _, _], rfl, rfl⟩
  | functionCall => cases h; exact ⟨[], [.ref Identifier], [_, _, _], rfl, rfl⟩
  | tuple | object | index => cases h; exact ⟨[], [], [_, _, _], rfl, rfl⟩
  | forTupleExpr => cases h; exact ⟨[], [], [_, _, _, _, _], rfl, rfl⟩
  | forObjectExpr => cases h; exact ⟨[], [], [_, _, _, _, _, _, _, _], rfl, rfl⟩
  | _ => cases h

theorem bracket_of_brackets {r opening closing b : HclRule} (h : brackets r = some (opening, closing))
    (hb : b ∈ [opening, closing]) : Vocabulary.isTerminal ⟨name⟩ b = true ∧ b ≠ WHITESPACE ∧
      (grammar.rule b).kind ≠ .silent := by
  cases r with
  | primary | functionCall | tuple | forTupleExpr | index | object | forObjectExpr =>
      cases h
      simp only [List.mem_cons, List.not_mem_nil, or_false] at hb
      rcases hb with rfl | rfl <;> exact ⟨layered.terminal_of_atomic rfl rfl, nofun, nofun⟩
  | _ => cases h

theorem nodes_of_reads_ref {r : HclRule} (hk : (grammar.rule r).kind ≠ .silent)
    (hc : c.keepsNodes = true) (h : grammar.Reads (.part true (.ref r)) c s (some s')) :
    ∃ m : Match HclRule, m.rule = r ∧ s'.nodes = m :: s.nodes := by
  obtain ⟨o, _, ho⟩ := (Grammar.reads_named (k := (grammar.rule r).kind) rfl hk).mp (reads_ref.mp h)
  obtain ⟨s₁, rfl, rfl⟩ := Option.map_eq_some_iff.mp ho.symm
  rw [RuleKind.keeps_of_keepsNodes hc]
  exact ⟨_, rfl, rfl⟩

theorem last_of_reads_juxtapose {last : Expr HclRule} : ∀ (es : List (Expr HclRule)) {s : State HclRule},
    grammar.Reads (.part true (.juxtapose (es ++ [last]))) c s (some s') →
      ∃ s₁ new, s₁.nodes = new ++ s.nodes ∧ grammar.Reads (.part true last) c s₁ (some s')
  | [], s, h => ⟨s, [], rfl, h⟩
  | e :: es, s, h => by
      have hcat : Expr.juxtapose (e :: es ++ [last]) = .cat e (.juxtapose (es ++ [last])) := by
        cases es <;> rfl
      rw [hcat] at h
      obtain ⟨s₁, s₂, h₁, hgap, h₂⟩ := reads_cat_some.mp h
      obtain ⟨s₃, new₃, hn₃, hlast⟩ := last_of_reads_juxtapose es h₂
      obtain ⟨new₁, hn₁⟩ := h₁.nodes_extend s₁ rfl
      obtain ⟨new₂, hn₂⟩ := hgap.nodes_extend s₂ rfl
      refine ⟨s₃, new₃ ++ (new₂ ++ new₁), ?_, hlast⟩
      rw [hn₃, hn₂, hn₁]
      simp only [List.append_assoc]

/-- What comes before the opening bracket of a sequence is read where the sequence is. -/
theorem opening_of_reads_juxtapose {source : List Char} {opening : HclRule} {rest : List (Expr HclRule)}
    (hrest : rest ≠ []) (hc : c.keepsNodes = true) : ∀ (pre : List (Expr HclRule)) {s : State HclRule},
    pre.all (fun e => e.refers false flat) = true → Outside source s →
    grammar.Reads (.part true (.juxtapose (pre ++ .ref opening :: rest))) c s (some s') →
      ∃ s₁ s₂ s₃, s.Leaves grammar flat (Outside source) s₁ ∧
        grammar.Reads (.part true (.ref opening)) c s₁ (some s₂) ∧
        grammar.Reads (.gap true) c s₂ (some s₃) ∧
        grammar.Reads (.part true (.juxtapose rest)) c s₃ (some s')
  | [], s, _, _, h => by
      have hcat : Expr.juxtapose (.ref opening :: rest) = .cat (.ref opening) (.juxtapose rest) := by
        cases rest with
        | nil => exact absurd rfl hrest
        | cons => rfl
      rw [List.nil_append, hcat] at h
      obtain ⟨s₂, s₃, hopen, hgap, hrest⟩ := reads_cat_some.mp h
      exact ⟨s, s₂, s₃, .of_eq rfl, hopen, hgap, hrest⟩
  | e :: pre, s, hpre, hs, h => by
      have hcat : Expr.juxtapose (e :: pre ++ .ref opening :: rest) =
          .cat e (.juxtapose (pre ++ .ref opening :: rest)) := by
        cases pre <;> rfl
      rw [hcat] at h
      obtain ⟨he, hpre⟩ := Bool.and_eq_true_iff.mp hpre
      obtain ⟨t₁, t₂, h₁, hgap, h₂⟩ := reads_cat_some.mp h
      have ht₁ := keeps_outside source (t := .part true e) he h₁ hs
      have ht₂ := keeps_outside source rfl hgap ht₁
      have hl₁ := closed_flat.leaves (keeps_outside source) h₁ t₁ rfl hc he hs
      have hl₂ := closed_flat.leaves (keeps_outside source) hgap t₂ rfl hc rfl ht₁
      obtain ⟨s₁, s₂, s₃, hl, hopen⟩ := opening_of_reads_juxtapose hrest hc pre hpre ht₂ h₂
      exact ⟨s₁, s₂, s₃, hl₁.trans (hl₂.trans hl), hopen⟩

/-- A list of nodes of which the first ones were left outside brackets, then an opening bracket comes, and
a closing one is last. -/
def Bracketed (source : List Char) (opening closing : HclRule) (ms : List (Match HclRule)) : Prop :=
  ∃ before m₁ between m₂, ms = before ++ m₁ :: (between ++ [m₂]) ∧ m₁.rule = opening ∧
    m₂.rule = closing ∧ ∀ m ∈ before, flat m.rule = true ∧ m.Left grammar (Outside source)

/-- A sequence with brackets leaves a bracketed list of nodes. -/
theorem bracketed_of_reads {source : List Char} {opening closing : HclRule}
    {pre mid : List (Expr HclRule)} (ho : (grammar.rule opening).kind ≠ .silent)
    (hcl : (grammar.rule closing).kind ≠ .silent) (hpre : pre.all (fun e => e.refers false flat) = true)
    (hc : c.keepsNodes = true) (hs : Outside source s) (hnodes : s.nodes = [])
    (h : grammar.Reads (.part true (.seq (pre ++ .ref opening :: (mid ++ [.ref closing])))) c s (some s')) :
    Bracketed source opening closing s'.nodes.reverse := by
  obtain ⟨s₁, s₂, s₃, ⟨before, hbefore, hleft⟩, hopen, hgap, hrest⟩ :=
    opening_of_reads_juxtapose (by simp) hc pre hpre hs (reads_group.mp h)
  obtain ⟨s₄, between, hbetween, hclose⟩ := last_of_reads_juxtapose mid hrest
  obtain ⟨m₁, hm₁, hn₂⟩ := nodes_of_reads_ref ho hc hopen
  obtain ⟨m₂, hm₂, hn'⟩ := nodes_of_reads_ref hcl hc hclose
  obtain ⟨blank, hblank⟩ := hgap.nodes_extend s₃ rfl
  refine ⟨before.reverse, m₁, (between ++ blank).reverse, m₂, ?_, hm₁, hm₂, ?_⟩
  · rw [hn', hbetween, hblank, hn₂, hbefore, hnodes]
    simp
  · intro m hm
    exact hleft m (List.mem_reverse.mp hm)

/-- Outside brackets the parts of a production are read outside brackets too, unless it has brackets of
its own. -/
theorem parts_of_left {source : List Char} {m : Match HclRule}
    (hm : m.Left grammar (Outside source)) (hf : flat m.rule = true)
    (hv : Vocabulary.isTerminal ⟨name⟩ m.rule = false) :
    (∀ m' ∈ m.parts, flat m'.rule = true ∧ m'.Left grammar (Outside source)) ∨
      ∃ opening closing, brackets m.rule = some (opening, closing) ∧
        Bracketed source opening closing m.parts := by
  cases hb : brackets m.rule with
  | none =>
      obtain ⟨hk, hbody⟩ := flat_production hf hv hb
      exact .inl (hm.parts closed_flat (keeps_outside source) (fun _ h => h) hk hbody)
  | some bs =>
      obtain ⟨opening, closing⟩ := bs
      obtain ⟨es, pre, mid, hrule, hall⟩ := shape_of_brackets hb
      obtain ⟨hes, hpre⟩ := Bool.and_eq_true_iff.mp (List.all_append.symm.trans hall)
      obtain @⟨r, k, e, c, s, s', hr, _, hc, hs, h⟩ := hm
      cases hr.symm.trans hrule
      obtain ⟨e, he, h⟩ := exists_reads_of_choice h
      rcases List.mem_append.mp he with he | he
      · have hrefers := List.all_eq_true.mp hes e he
        obtain ⟨new, hn, hnew⟩ := closed_flat.leaves (keeps_outside source) h s' rfl hc hrefers hs
        refine .inl fun m' hm' => hnew m' ?_
        rw [Match.parts, hn, List.append_nil] at hm'
        exact List.mem_reverse.mp hm'
      · cases List.mem_singleton.mp he
        obtain ⟨_, _, ho⟩ := bracket_of_brackets hb List.mem_cons_self
        obtain ⟨_, _, hcl⟩ := bracket_of_brackets hb (List.mem_cons_of_mem _ List.mem_cons_self)
        exact .inr ⟨opening, closing, rfl,
          bracketed_of_reads (s := { s with nodes := [] }) ho hcl hpre hc hs rfl h⟩

/-! ### Blanks -/

/-- One part of a blank. -/
def blankPart : Expr HclRule :=
  .choice [.lit " ", .lit "\t", .seq [.ref nested, .oneOf ["\r", "\n"]]]

theorem reads_blank_char {s : State HclRule} (hs : s.marks = [])
    (h : grammar.Reads (.part false blankPart) c s (some s')) : ∃ ch, (ch = ' ' ∨ ch = '\t') ∧ s.Reads s' [ch] := by
  obtain ⟨e, he, h⟩ := exists_reads_of_choice h
  simp only [List.mem_cons, List.not_mem_nil, or_false] at he
  rcases he with rfl | rfl | rfl
  · obtain ⟨rest, hrest, rfl⟩ := State.strip?_eq_some ((Grammar.reads_leaf rfl).mp h).symm
    exact ⟨' ', .inl rfl, hrest, rfl, rfl⟩
  · obtain ⟨rest, hrest, rfl⟩ := State.strip?_eq_some ((Grammar.reads_leaf rfl).mp h).symm
    exact ⟨'\t', .inr rfl, hrest, rfl, rfl⟩
  · -- there is no mark to compare with
    obtain ⟨s₁, _, hpeek, _⟩ := reads_cat_some.mp (reads_group.mp h)
    cases (reads_silent rfl).mp (reads_ref.mp hpeek) with
    | leaf hleaf =>
        rw [Expr.leaf?, hs] at hleaf
        cases hleaf

theorem reads_blank_rounds {t : Task HclRule} {o : Option (State HclRule)}
    (h : grammar.Reads t c s o) : ∀ s', t = .rounds false blankPart → o = some s' → s.marks = [] →
      ∃ w, s.Reads s' w ∧ ∀ ch ∈ w, ch = ' ' ∨ ch = '\t' := by
  induction h with
  | round hgap hround _ _ _ ih =>
      intro s' ht ho hs
      cases ht
      cases Grammar.reads_gap_tight.mp hgap
      obtain ⟨ch, hch, hread⟩ := reads_blank_char hs hround
      obtain ⟨w, hrest, hw⟩ := ih s' rfl ho (hread.marks.trans hs)
      exact ⟨[ch] ++ w, hread.trans hrest, List.forall_mem_cons.mpr ⟨hch, hw⟩⟩
  | rounds_end | rounds_gap =>
      intro s' _ ho _
      cases ho
      exact ⟨[], .refl _, nofun⟩
  | _ => nofun

/-- Outside brackets a blank holds no line end. -/
theorem blank_of_left {source : List Char} {m : Match HclRule} (hm : m.Left grammar (Outside source))
    (hr : m.rule = WHITESPACE) : ∀ ch ∈ m.text source, ch = ' ' ∨ ch = '\t' := by
  obtain @⟨_, k, e, c, s, s', hrule, _, _, ⟨hin, hmarks⟩, h⟩ := hm
  obtain rfl : _ = WHITESPACE := hr
  obtain rfl : RuleKind.atomic = k := congrArg Rule.kind hrule
  obtain rfl : (grammar.rule WHITESPACE).body = e := congrArg Rule.body hrule
  obtain ⟨s₁, s₂, hfirst, hgap, hmore⟩ := reads_cat_some.mp (reads_group.mp h)
  cases Grammar.reads_gap_tight.mp hgap
  obtain ⟨ch, hch, hread⟩ := reads_blank_char (s := { s with nodes := [] }) hmarks hfirst
  have hall : ∃ w, s₁.Reads s' w ∧ ∀ ch ∈ w, ch = ' ' ∨ ch = '\t' := by
    rcases reads_star.mp hmore with ⟨s₂, hsecond, hrounds⟩ | ⟨_, heq⟩
    · obtain ⟨ch', hch', hread'⟩ := reads_blank_char (hread.marks.trans hmarks) hsecond
      obtain ⟨w, hrest, hw⟩ := reads_blank_rounds hrounds s' rfl rfl
        (hread'.marks.trans (hread.marks.trans hmarks))
      exact ⟨[ch'] ++ w, hread'.trans hrest, List.forall_mem_cons.mpr ⟨hch', hw⟩⟩
    · cases heq
      exact ⟨[], .refl _, nofun⟩
  obtain ⟨w, hrest, hw⟩ := hall
  have htext := hread.trans hrest
  rw [Match.text, hin.text_eq htext.rest htext.pos]
  exact List.forall_mem_cons.mpr ⟨hch, hw⟩

/-! ### Addresses -/

/-- The address leads between the brackets of a production above it. -/
def Between (x : Nested HclRule) (path : List Nat) : Prop :=
  ∃ p k q r xs opening closing, path = p ++ k :: q ∧ x.subtreeAt p = some (.production r xs) ∧
    brackets r = some (opening, closing) ∧ ∃ i j a b, i < k ∧ k < j ∧
      xs[i]? = some (.token a) ∧ a.kind = opening ∧ xs[j]? = some (.token b) ∧ b.kind = closing

theorem Between.cons {x y : Nested HclRule} {k : Nat} {path : List Nat} (hy : x.children[k]? = some y)
    (h : Between y path) : Between x (k :: path) := by
  obtain ⟨p, k', q, r, xs, opening, closing, rfl, hp, hb⟩ := h
  exact ⟨k :: p, k', q, r, xs, opening, closing, rfl,
    Nested.subtreeAt_cons_eq_some.mpr ⟨y, hy, hp⟩, hb⟩

/-- In a bracketed list a node is left outside brackets, is a bracket itself or lies between the two. -/
theorem Bracketed.cases {source : List Char} {opening closing : HclRule} {ms : List (Match HclRule)}
    (h : Bracketed source opening closing ms) {k : Nat} {m : Match HclRule} (hk : ms[k]? = some m) :
    (flat m.rule = true ∧ m.Left grammar (Outside source)) ∨ m.rule ∈ [opening, closing] ∨
      ∃ i j m₁ m₂, i < k ∧ k < j ∧ ms[i]? = some m₁ ∧ m₁.rule = opening ∧ ms[j]? = some m₂ ∧
        m₂.rule = closing := by
  obtain ⟨before, m₁, between, m₂, rfl, h₁, h₂, hleft⟩ := h
  rcases Nat.lt_trichotomy k before.length with hlt | heq | hgt
  · rw [List.getElem?_append_left hlt] at hk
    exact .inl (hleft m (List.mem_of_getElem? hk))
  · subst heq
    rw [List.getElem?_append_right (Nat.le_refl _), Nat.sub_self] at hk
    cases hk
    exact .inr (.inl (List.mem_cons.mpr (.inl h₁)))
  · obtain ⟨n, rfl⟩ : ∃ n, k = before.length + (n + 1) := ⟨k - before.length - 1, by omega⟩
    rw [List.getElem?_append_right (by omega), Nat.add_sub_cancel_left] at hk
    rcases Nat.lt_trichotomy n between.length with hlt | heq | hgt
    · refine .inr (.inr ⟨before.length, before.length + (between.length + 1), m₁, m₂, by omega, by omega,
        ?_, h₁, ?_, h₂⟩)
      · simp
      · simp
    · subst heq
      rw [List.getElem?_cons_succ, List.getElem?_append_right (Nat.le_refl _), Nat.sub_self] at hk
      cases hk
      exact .inr (.inl (List.mem_cons.mpr (.inr (List.mem_singleton.mpr h₂))))
    · rw [List.getElem?_cons_succ, List.getElem?_append_right (by omega)] at hk
      have hlen := (List.getElem?_eq_some_iff.mp hk).1
      simp only [List.length_singleton] at hlen
      omega

/-- A blank with a line end stands between brackets.  The induction goes down the address as long as no
bracket is open: a step into brackets ends it, and a blank that is met before holds no line end. -/
theorem between_of_break {source : List Char} {tok : Token HclRule} (hkind : tok.kind = WHITESPACE)
    (hbreak : ∃ ch ∈ tok.text.toList, ch = '\r' ∨ ch = '\n') {path : List Nat} :
    ∀ {m : Match HclRule}, flat m.rule = true → m.Left grammar (Outside source) →
      (m.nested ⟨name⟩ source).subtreeAt path = some (.token tok) →
      Between (m.nested ⟨name⟩ source) path := by
  induction path with
  | nil =>
      intro m _ hm h
      rw [Nested.subtreeAt_nil, Option.some.injEq] at h
      cases hv : Vocabulary.isTerminal ⟨name⟩ m.rule with
      | false =>
          rw [Match.nested_eq_production source hv] at h
          cases h
      | true =>
          obtain ⟨tok', htok', hkind', htext⟩ := Match.exists_nested_eq_token source hv
          rw [htok'] at h
          cases h
          obtain ⟨ch, hch, hends⟩ := hbreak
          rw [htext] at hch
          rcases blank_of_left hm (hkind'.symm.trans hkind) ch hch with rfl | rfl
          · rcases hends with h | h <;> cases h
          · rcases hends with h | h <;> cases h
  | cons k path ih =>
      intro m hf hm h
      obtain ⟨z, hz, hpath⟩ := Nested.subtreeAt_cons_eq_some.mp h
      obtain ⟨hv, m', hm', rfl⟩ := Match.exists_part_of_children hz
      rcases parts_of_left hm hf hv with hflat | ⟨opening, closing, hb, hbracketed⟩
      · obtain ⟨hf', hleft⟩ := hflat m' (List.mem_of_getElem? hm')
        exact .cons hz (ih hf' hleft hpath)
      · rcases hbracketed.cases hm' with ⟨hf', hleft⟩ | hbracket | ⟨i, j, m₁, m₂, hi, hj, h₁, hr₁, h₂, hr₂⟩
        · exact .cons hz (ih hf' hleft hpath)
        · -- a bracket is no blank
          obtain ⟨hv', hne, _⟩ := bracket_of_brackets hb hbracket
          obtain ⟨tok', htok', hkind', _⟩ := Match.exists_nested_eq_token source hv'
          rw [htok'] at hpath
          cases Nested.subtreeAt_token_eq_some hpath
          exact absurd (hkind'.symm.trans hkind) hne
        · obtain ⟨hv₁, _⟩ := bracket_of_brackets hb List.mem_cons_self
          obtain ⟨hv₂, _⟩ := bracket_of_brackets hb (List.mem_cons_of_mem _ List.mem_cons_self)
          rw [← hr₁] at hv₁
          rw [← hr₂] at hv₂
          obtain ⟨a, ha, hka, _⟩ := Match.exists_nested_eq_token source hv₁
          obtain ⟨b, hb', hkb, _⟩ := Match.exists_nested_eq_token source hv₂
          refine ⟨[], k, path, m.rule, Match.nestedAll ⟨name⟩ source m.parts, opening, closing, rfl, ?_, hb,
            i, j, a, b, hi, hj, ?_, hka.trans hr₁, ?_, hkb.trans hr₂⟩
          · rw [Nested.subtreeAt_nil, Match.nested_eq_production source hv]
          · rw [Match.getElem?_nestedAll, h₁, Option.map_some, ha]
          · rw [Match.getElem?_nestedAll, h₂, Option.map_some, hb']

/-! ### Expressions -/

/-- The rules of which expressions are made. -/
def inner (r : HclRule) : Bool :=
  !lexical.contains r &&
    !List.contains [EOI, configFile, body, itemEnd, attributeEntry, block, Newline] r

theorem refers_inner {r : HclRule} (hr : inner r = true) (hk : (grammar.rule r).kind ≠ .atomic) :
    (grammar.rule r).body.refers true inner = true := by
  have h := forall_of_all mem_all (p := fun r => !inner r || (grammar.rule r).kind = .atomic ||
    (grammar.rule r).body.refers true inner) (by decide +kernel) r
  simpa [hr, hk] using h

theorem closed_inner : grammar.Closed true inner where
  trivia := rfl
  silent r hr hk := refers_inner hr (by rw [hk]; nofun)

theorem inner_production {r : HclRule} (hr : inner r = true)
    (hv : Vocabulary.isTerminal ⟨name⟩ r = false) :
    (grammar.rule r).kind ≠ .atomic ∧ (grammar.rule r).body.refers true inner = true := by
  have hl : lexical.contains r = false := by
    simp only [inner, Bool.and_eq_true, Bool.not_eq_true'] at hr
    exact hr.1
  obtain ⟨hk, _⟩ := layered.production hl hv
  exact ⟨hk, refers_inner hr hk⟩

theorem inner_of_mem_tokens {source : List Char} {m : Match HclRule} {Q : State HclRule → Prop}
    (hm : m.Left grammar Q) (hr : inner m.rule = true) {tok : Token HclRule}
    (htok : tok ∈ (m.nested ⟨name⟩ source).tokens) : inner tok.kind = true := by
  obtain ⟨p, hp⟩ := Nested.exists_subtreeAt_of_mem_tokens htok
  have hparts : ∀ m : Match HclRule, (inner m.rule = true ∧ m.Left grammar fun _ => True) →
      Vocabulary.isTerminal ⟨name⟩ m.rule = false →
      ∀ m' ∈ m.parts, inner m'.rule = true ∧ m'.Left grammar fun _ => True := by
    rintro m ⟨hr, hm⟩ hv
    obtain ⟨hk, hbody⟩ := inner_production hr hv
    exact hm.parts closed_inner (fun _ _ _ => trivial) (fun _ h => h) hk hbody
  obtain ⟨m', ⟨hr', _⟩, heq⟩ := Match.exists_of_subtreeAt hparts ⟨hr, hm.imp fun _ _ => trivial⟩ hp
  have hkind : (Nested.token tok).kind = m'.rule := by rw [heq, Match.kind_nested]
  rw [← hkind] at hr'
  exact hr'

/-! ### Trees -/

theorem newline_between_items {source : List Char} {m : Match HclRule}
    (hm : m.Left grammar (State.Unmarked source)) (hr : m.rule = body)
    {before mid after : List (Nested HclRule)} {a b : Nested HclRule}
    (hxs : Match.nestedAll ⟨name⟩ source m.parts = before ++ a :: mid ++ b :: after)
    (ha : isItem a.kind = true) (hb : isItem b.kind = true) :
    ∃ tok, Nested.token tok ∈ mid ∧ tok.kind = Newline := by
  obtain ⟨free, hfree⟩ := Option.isSome_iff_exists.mp (separate_body hm hr)
  have hnames : m.parts.map Match.rule =
      before.map Nested.kind ++ a.kind :: mid.map Nested.kind ++ b.kind :: after.map Nested.kind := by
    calc m.parts.map Match.rule
        = (Match.nestedAll ⟨name⟩ source m.parts).map Nested.kind := (Match.map_kind_nestedAll _).symm
      _ = _ := by rw [hxs]; simp only [List.map_append, List.map_cons]
  rw [hnames] at hfree
  obtain ⟨y, hy, hkind⟩ := List.mem_map.mp (newline_mem_between hfree ha hb)
  -- a line end is a token
  have hmem : y ∈ Match.nestedAll ⟨name⟩ source m.parts := by
    rw [hxs]
    exact List.mem_append_left _ (List.mem_append_right _ (List.mem_cons_of_mem a hy))
  obtain ⟨k, hk⟩ := List.getElem?_of_mem hmem
  rw [Match.getElem?_nestedAll] at hk
  obtain ⟨m', _, rfl⟩ := Option.map_eq_some_iff.mp hk
  rw [Match.kind_nested] at hkind
  obtain ⟨tok, htok, htk, _⟩ := Match.exists_nested_eq_token source
    (v := ⟨name⟩) (m := m') (by rw [hkind]; exact layered.terminal_of_atomic rfl rfl)
  exact ⟨tok, htok ▸ hy, htk.trans hkind⟩

/-- The tree of a source is that of a match that was left outside brackets. -/
theorem exists_left_outside {origin source : String} {limit : Option Nat} {t : Tree HclRule}
    (h : Language.hcl.parseTree origin source limit = .ok t) :
    ∃ m : Match HclRule, m.rule = configFile ∧ m.Left grammar (Outside source.toList) ∧
      t.nodes.toList = (m.nested ⟨name⟩ source.toList).layout 0 := by
  obtain ⟨m, _, hp, hlayout, _⟩ := Language.parseTree_spans h
  have hinit : Outside source.toList (Grammar.initialState source.toList) := ⟨rfl, rfl⟩
  obtain ⟨hstart, hm⟩ := grammar.left_of_parse nofun hinit hp
  exact ⟨m, hstart, hm, hlayout⟩

end HclRule

/-- **Lines of HCL.**  The items of a body are kept apart by line ends.  A blank over several lines stands
between the brackets of a production above it, and no line end is a token of an expression. -/
theorem Language.lines_parseTree (origin source : String) (limit : Option Nat) (t : Tree hcl.Rules)
    (h : hcl.parseTree origin source limit = .ok t) :
    ∃ x : Nested HclRule, x.At t Tree.root ∧ x.tokens = t.tokens ∧
      (∀ p xs, x.subtreeAt p = some (.production .body xs) → ∀ before a mid b after,
        xs = before ++ a :: mid ++ b :: after → a.kind.isItem = true → b.kind.isItem = true →
          ∃ tok, Nested.token tok ∈ mid ∧ tok.kind = .Newline) ∧
      (∀ path tok, x.subtreeAt path = some (.token tok) → tok.kind = .WHITESPACE →
        (∃ ch ∈ tok.text.toList, ch = '\r' ∨ ch = '\n') → HclRule.Between x path) ∧
      ∀ p y, x.subtreeAt p = some y → y.kind = .expression → ∀ tok ∈ y.tokens, tok.kind ≠ .Newline := by
  obtain ⟨m, hstart, hm, hlayout⟩ := HclRule.exists_left_outside h
  -- what is left outside brackets is left where all marks are empty
  have hunmarked : HclRule.lexical.contains m.rule = false ∧
      m.Left HclRule.grammar (State.Unmarked source.toList) := by
    refine ⟨by rw [hstart]; decide, hm.imp fun s hs => ⟨hs.1, ?_⟩⟩
    rw [hs.2]
    nofun
  have hbelow : ∀ {p : List Nat} {y : Nested HclRule},
      (m.nested ⟨HclRule.name⟩ source.toList).subtreeAt p = some y → ∃ m' : Match HclRule,
        (HclRule.lexical.contains m'.rule = false ∧
          m'.Left HclRule.grammar (State.Unmarked source.toList)) ∧
        y = m'.nested ⟨HclRule.name⟩ source.toList := by
    intro p y hy
    refine Match.exists_of_subtreeAt (fun m hm hv => ?_) hunmarked hy
    exact HclRule.layered.left_parts HclRule.shifts hm.2 hm.1 hv
  obtain ⟨hat, htokens⟩ := Nested.at_root_of_layout hlayout
  refine ⟨m.nested ⟨HclRule.name⟩ source.toList, hat, htokens, ?_, ?_, ?_⟩
  · intro p xs hbody before a mid b after hxs ha hb
    obtain ⟨m', ⟨_, hm'⟩, heq⟩ := hbelow hbody
    have hr : m'.rule = .body := by
      calc m'.rule = (m'.nested ⟨HclRule.name⟩ source.toList).kind := (Match.kind_nested m').symm
        _ = .body := by rw [← heq]; rfl
    have hv : Vocabulary.isTerminal ⟨HclRule.name⟩ m'.rule = false := by
      rw [hr]
      exact HclRule.layered.not_terminal_of_kind rfl rfl nofun
    rw [Match.nested_eq_production _ hv] at heq
    injection heq with _ hparts
    exact HclRule.newline_between_items hm' hr (hparts.symm.trans hxs) ha hb
  · intro path tok htok hkind hbreak
    exact HclRule.between_of_break hkind hbreak (by rw [hstart]; decide) hm htok
  · intro p y hy hkind tok htok hnewline
    obtain ⟨m', ⟨_, hm'⟩, rfl⟩ := hbelow hy
    rw [Match.kind_nested] at hkind
    have hinner := HclRule.inner_of_mem_tokens hm' (by rw [hkind]; decide) htok
    rw [hnewline] at hinner
    cases hinner

theorem Language.lines_parseTree_tuple :
    ∃ t, hcl.parseTree "main.tf" "a = [\n1]\nb {}" none = .ok t ∧
      ∃ x : Nested HclRule, x.At t Tree.root ∧ x.tokens = t.tokens ∧
        (∀ p xs, x.subtreeAt p = some (.production .body xs) → ∀ before a mid b after,
          xs = before ++ a :: mid ++ b :: after → a.kind.isItem = true → b.kind.isItem = true →
            ∃ tok, Nested.token tok ∈ mid ∧ tok.kind = .Newline) ∧
        (∀ path tok, x.subtreeAt path = some (.token tok) → tok.kind = .WHITESPACE →
          (∃ ch ∈ tok.text.toList, ch = '\r' ∨ ch = '\n') → HclRule.Between x path) ∧
        ∀ p y, x.subtreeAt p = some y → y.kind = .expression →
          ∀ tok ∈ y.tokens, tok.kind ≠ .Newline := by
  have hok : (hcl.parseTree "main.tf" "a = [\n1]\nb {}" none).toOption.isSome = true := by
    decide +kernel
  cases ht : hcl.parseTree "main.tf" "a = [\n1]\nb {}" none with
  | error f => rw [ht] at hok; cases hok
  | ok t => exact ⟨t, rfl, Language.lines_parseTree "main.tf" _ none t ht⟩

end ConcreteSyntax
