import ConcreteSyntax.Grammar.Parse

/-! # Readings

What a grammar matches, without limits, units or attempts.

* **Tasks** (`Task`).  An expression, a rule, the gap between two parts, or the rounds of a
  repetition after its first one.
* **Readings** (`Grammar.Reads`).  `g.Reads t c s o` says that task `t`, started in state `s` under
  context `c`, ends with `o`: a state, or none where it does not match.  A reading is finite, and each
  task has at most one (`Grammar.Reads.unique`).
* **Runs** (`Grammar.invoke_follows`).  A run that is not abandoned ends as the reading says, whatever
  limits it ran under.  So what holds of every reading holds of every run that gave an answer.

The lemmas `reads_cat`, `reads_alt`, … open a reading one construct at a time. -/

namespace ConcreteSyntax

variable {R : Type}

/-- What there is to match. -/
inductive Task (R : Type) where
  /-- An expression; `spaced` tells whether trivia stands between its parts. -/
  | part (spaced : Bool) (e : Expr R)
  /-- A rule. -/
  | rule (r : R)
  /-- What stands between two parts. -/
  | gap (spaced : Bool)
  /-- The rounds of a repetition after the first. -/
  | rounds (spaced : Bool) (e : Expr R)

/-- How an expression ends that looks at the state only; none for all others. -/
def Expr.leaf? : Expr R → State R → Option (Option (State R))
  | .word w, s => some (s.strip? w)
  | .caseless w, s => some ((stripCaseless w s.rest).map fun rest => s.advance rest w.length)
  | .char k, s => some (match s.rest with
      | [] => none
      | ch :: rest => if k.mem ch then some (s.advance rest 1) else none)
  | .startOfInput, s => some (if s.pos = 0 then some s else none)
  | .endOfInput, s => some (if s.rest.isEmpty then some s else none)
  | .upTo stops, s => some (some (s.advance (skipUpTo stops s.rest 0).1 (skipUpTo stops s.rest 0).2))
  | .peek, s => some (match s.marks with
      | [] => none
      | w :: _ => s.strip? w)
  | .pop, s => some (match s.marks with
      | [] => none
      | w :: marks => (s.strip? w).map fun s' => { s' with marks := marks })
  | .drop, s => some (match s.marks with
      | [] => none
      | _ :: marks => some { s with marks := marks })
  | _, _ => none

namespace RuleKind

/-- Whether trivia stands between the parts of a rule. -/
def spaced : RuleKind → Bool
  | normal | silent => true
  | atomic | compound => false

/-- The context in which what a rule matches is run. -/
def inner : RuleKind → Context → Context
  | normal, c | silent, c => c
  | atomic, c => { c with atomicity := .atomic }
  | compound, c => { c with atomicity := .compound }

/-- Whether a rule leaves a node. -/
def keeps : RuleKind → Context → Bool
  | compound, c => { c with atomicity := .compound : Context }.keepsNodes
  | _, c => c.keepsNodes

end RuleKind

/-- The state after a rule, from the state before it and the one its body ended in. -/
def State.close (s : State R) (r : R) (keep : Bool) (s' : State R) : State R :=
  { s' with
    nodes :=
      if keep then .node r s.pos s'.pos s'.nodes.reverse :: s.nodes else s'.nodes ++ s.nodes }

/-- How a task ends. -/
inductive Grammar.Reads (g : Grammar R) : Task R → Context → State R → Option (State R) → Prop
  | leaf {b e c s o} : e.leaf? s = some o → Reads g (.part b e) c s o
  | ref {b r c s o} : Reads g (.rule r) c s o → Reads g (.part b (.ref r)) c s o
  | cat {b e₁ e₂ c s s₁ s₂ o} : Reads g (.part b e₁) c s (some s₁) → Reads g (.gap b) c s₁ (some s₂) →
      Reads g (.part b e₂) c s₂ o → Reads g (.part b (.cat e₁ e₂)) c s o
  | cat_left {b e₁ e₂ c s} : Reads g (.part b e₁) c s none → Reads g (.part b (.cat e₁ e₂)) c s none
  | cat_gap {b e₁ e₂ c s s₁} : Reads g (.part b e₁) c s (some s₁) → Reads g (.gap b) c s₁ none →
      Reads g (.part b (.cat e₁ e₂)) c s none
  | group {b e c s o} : Reads g (.part b e) c s o → Reads g (.part b (.group e)) c s o
  | alt_left {b e₁ e₂ c s s'} : Reads g (.part b e₁) c s (some s') →
      Reads g (.part b (.alt e₁ e₂)) c s (some s')
  | alt_right {b e₁ e₂ c s o} : Reads g (.part b e₁) c s none → Reads g (.part b e₂) c s o →
      Reads g (.part b (.alt e₁ e₂)) c s o
  | opt_some {b e c s s'} : Reads g (.part b e) c s (some s') → Reads g (.part b (.opt e)) c s (some s')
  | opt_none {b e c s} : Reads g (.part b e) c s none → Reads g (.part b (.opt e)) c s (some s)
  | star_some {b e c s s₁ o} : Reads g (.part b e) c s (some s₁) → Reads g (.rounds b e) c s₁ o →
      Reads g (.part b (.star e)) c s o
  | star_none {b e c s} : Reads g (.part b e) c s none → Reads g (.part b (.star e)) c s (some s)
  | round {b e c s s₁ s₂ o} : Reads g (.gap b) c s (some s₁) → Reads g (.part b e) c s₁ (some s₂) →
      Reads g (.rounds b e) c s₂ o → Reads g (.rounds b e) c s o
  | rounds_end {b e c s s₁} : Reads g (.gap b) c s (some s₁) → Reads g (.part b e) c s₁ none →
      Reads g (.rounds b e) c s (some s)
  | rounds_gap {b e c s} : Reads g (.gap b) c s none → Reads g (.rounds b e) c s (some s)
  | ahead_some {b e c s s'} :
      Reads g (.part b e) { c with lookahead := c.lookahead.affirm } s (some s') →
      Reads g (.part b (.ahead e)) c s (some s)
  | ahead_none {b e c s} : Reads g (.part b e) { c with lookahead := c.lookahead.affirm } s none →
      Reads g (.part b (.ahead e)) c s none
  | notAhead_some {b e c s s'} :
      Reads g (.part b e) { c with lookahead := c.lookahead.negate } s (some s') →
      Reads g (.part b (.notAhead e)) c s none
  | notAhead_none {b e c s} : Reads g (.part b e) { c with lookahead := c.lookahead.negate } s none →
      Reads g (.part b (.notAhead e)) c s (some s)
  | mark_some {b e c s s'} : Reads g (.part b e) c s (some s') →
      Reads g (.part b (.mark e)) c s (some { s' with marks := s.textTo s' :: s'.marks })
  | mark_none {b e c s} : Reads g (.part b e) c s none → Reads g (.part b (.mark e)) c s none
  | gap_tight {c s} : Reads g (.gap false) c s (some s)
  | gap_closed {c s} : c.atomicity ≠ .free → Reads g (.gap true) c s (some s)
  | gap_free {c s o} : c.atomicity = .free → Reads g (.part false g.trivia) c s o →
      Reads g (.gap true) c s o
  | silent {r e c s o} : g.rule r = ⟨.silent, e⟩ → Reads g (.part true e) c s o →
      Reads g (.rule r) c s o
  | named_some {r k e c s s'} : g.rule r = ⟨k, e⟩ → k ≠ .silent →
      Reads g (.part k.spaced e) (k.inner c) { s with nodes := [] } (some s') →
      Reads g (.rule r) c s (some (s.close r (k.keeps c) s'))
  | named_none {r k e c s} : g.rule r = ⟨k, e⟩ → k ≠ .silent →
      Reads g (.part k.spaced e) (k.inner c) { s with nodes := [] } none → Reads g (.rule r) c s none

namespace Grammar

variable {g : Grammar R} {b : Bool} {e e₁ e₂ : Expr R} {c : Context} {s s' : State R}
  {o : Option (State R)}

/-! ### Opening a reading -/

theorem reads_leaf {o' : Option (State R)} (h : e.leaf? s = some o') :
    g.Reads (.part b e) c s o ↔ o = o' := by
  constructor
  · intro hr
    cases hr with
    | leaf h' => exact Option.some.inj (h'.symm.trans h)
    | _ => cases h
  · rintro rfl
    exact .leaf h

theorem reads_ref {r : R} : g.Reads (.part b (.ref r)) c s o ↔ g.Reads (.rule r) c s o := by
  constructor
  · intro h
    cases h with
    | leaf h => cases h
    | ref h => exact h
  · exact .ref

theorem reads_cat : g.Reads (.part b (.cat e₁ e₂)) c s o ↔
    g.Reads (.part b e₁) c s none ∧ o = none ∨ ∃ s₁, g.Reads (.part b e₁) c s (some s₁) ∧
      (g.Reads (.gap b) c s₁ none ∧ o = none ∨
        ∃ s₂, g.Reads (.gap b) c s₁ (some s₂) ∧ g.Reads (.part b e₂) c s₂ o) := by
  constructor
  · intro h
    cases h with
    | leaf h => cases h
    | cat h₁ h₂ h₃ => exact .inr ⟨_, h₁, .inr ⟨_, h₂, h₃⟩⟩
    | cat_left h₁ => exact .inl ⟨h₁, rfl⟩
    | cat_gap h₁ h₂ => exact .inr ⟨_, h₁, .inl ⟨h₂, rfl⟩⟩
  · rintro (⟨h₁, rfl⟩ | ⟨s₁, h₁, ⟨h₂, rfl⟩ | ⟨s₂, h₂, h₃⟩⟩)
    · exact .cat_left h₁
    · exact .cat_gap h₁ h₂
    · exact .cat h₁ h₂ h₃

theorem reads_group : g.Reads (.part b (.group e)) c s o ↔ g.Reads (.part b e) c s o := by
  constructor
  · intro h
    cases h with
    | leaf h => cases h
    | group h => exact h
  · exact .group

theorem reads_alt : g.Reads (.part b (.alt e₁ e₂)) c s o ↔
    (∃ s', g.Reads (.part b e₁) c s (some s') ∧ o = some s') ∨
      g.Reads (.part b e₁) c s none ∧ g.Reads (.part b e₂) c s o := by
  constructor
  · intro h
    cases h with
    | leaf h => cases h
    | alt_left h => exact .inl ⟨_, h, rfl⟩
    | alt_right h₁ h₂ => exact .inr ⟨h₁, h₂⟩
  · rintro (⟨s', h, rfl⟩ | ⟨h₁, h₂⟩)
    · exact .alt_left h
    · exact .alt_right h₁ h₂

theorem reads_opt : g.Reads (.part b (.opt e)) c s o ↔
    (∃ s', g.Reads (.part b e) c s (some s') ∧ o = some s') ∨
      g.Reads (.part b e) c s none ∧ o = some s := by
  constructor
  · intro h
    cases h with
    | leaf h => cases h
    | opt_some h => exact .inl ⟨_, h, rfl⟩
    | opt_none h => exact .inr ⟨h, rfl⟩
  · rintro (⟨s', h, rfl⟩ | ⟨h, rfl⟩)
    · exact .opt_some h
    · exact .opt_none h

theorem reads_star : g.Reads (.part b (.star e)) c s o ↔
    (∃ s₁, g.Reads (.part b e) c s (some s₁) ∧ g.Reads (.rounds b e) c s₁ o) ∨
      g.Reads (.part b e) c s none ∧ o = some s := by
  constructor
  · intro h
    cases h with
    | leaf h => cases h
    | star_some h₁ h₂ => exact .inl ⟨_, h₁, h₂⟩
    | star_none h => exact .inr ⟨h, rfl⟩
  · rintro (⟨s₁, h₁, h₂⟩ | ⟨h, rfl⟩)
    · exact .star_some h₁ h₂
    · exact .star_none h

theorem reads_rounds : g.Reads (.rounds b e) c s o ↔
    g.Reads (.gap b) c s none ∧ o = some s ∨ ∃ s₁, g.Reads (.gap b) c s (some s₁) ∧
      (g.Reads (.part b e) c s₁ none ∧ o = some s ∨
        ∃ s₂, g.Reads (.part b e) c s₁ (some s₂) ∧ g.Reads (.rounds b e) c s₂ o) := by
  constructor
  · intro h
    cases h with
    | round h₁ h₂ h₃ => exact .inr ⟨_, h₁, .inr ⟨_, h₂, h₃⟩⟩
    | rounds_end h₁ h₂ => exact .inr ⟨_, h₁, .inl ⟨h₂, rfl⟩⟩
    | rounds_gap h => exact .inl ⟨h, rfl⟩
  · rintro (⟨h, rfl⟩ | ⟨s₁, h₁, ⟨h₂, rfl⟩ | ⟨s₂, h₂, h₃⟩⟩)
    · exact .rounds_gap h
    · exact .rounds_end h₁ h₂
    · exact .round h₁ h₂ h₃

theorem reads_ahead : g.Reads (.part b (.ahead e)) c s o ↔
    (∃ s', g.Reads (.part b e) { c with lookahead := c.lookahead.affirm } s (some s') ∧
        o = some s) ∨
      g.Reads (.part b e) { c with lookahead := c.lookahead.affirm } s none ∧ o = none := by
  constructor
  · intro h
    cases h with
    | leaf h => cases h
    | ahead_some h => exact .inl ⟨_, h, rfl⟩
    | ahead_none h => exact .inr ⟨h, rfl⟩
  · rintro (⟨s', h, rfl⟩ | ⟨h, rfl⟩)
    · exact .ahead_some h
    · exact .ahead_none h

theorem reads_notAhead : g.Reads (.part b (.notAhead e)) c s o ↔
    (∃ s', g.Reads (.part b e) { c with lookahead := c.lookahead.negate } s (some s') ∧
        o = none) ∨
      g.Reads (.part b e) { c with lookahead := c.lookahead.negate } s none ∧ o = some s := by
  constructor
  · intro h
    cases h with
    | leaf h => cases h
    | notAhead_some h => exact .inl ⟨_, h, rfl⟩
    | notAhead_none h => exact .inr ⟨h, rfl⟩
  · rintro (⟨s', h, rfl⟩ | ⟨h, rfl⟩)
    · exact .notAhead_some h
    · exact .notAhead_none h

theorem reads_mark : g.Reads (.part b (.mark e)) c s o ↔
    (∃ s', g.Reads (.part b e) c s (some s') ∧
        o = some { s' with marks := s.textTo s' :: s'.marks }) ∨
      g.Reads (.part b e) c s none ∧ o = none := by
  constructor
  · intro h
    cases h with
    | leaf h => cases h
    | mark_some h => exact .inl ⟨_, h, rfl⟩
    | mark_none h => exact .inr ⟨h, rfl⟩
  · rintro (⟨s', h, rfl⟩ | ⟨h, rfl⟩)
    · exact .mark_some h
    · exact .mark_none h

theorem reads_gap_tight : g.Reads (.gap false) c s o ↔ o = some s := by
  constructor
  · intro h
    cases h with
    | gap_tight => rfl
  · rintro rfl
    exact .gap_tight

theorem reads_gap_closed (hc : c.atomicity ≠ .free) : g.Reads (.gap true) c s o ↔ o = some s := by
  constructor
  · intro h
    cases h with
    | gap_closed => rfl
    | gap_free hf => exact absurd hf hc
  · rintro rfl
    exact .gap_closed hc

theorem reads_gap_free (hc : c.atomicity = .free) :
    g.Reads (.gap true) c s o ↔ g.Reads (.part false g.trivia) c s o := by
  constructor
  · intro h
    cases h with
    | gap_closed hn => exact absurd hc hn
    | gap_free _ h => exact h
  · exact .gap_free hc

theorem reads_silent {r : R} (hr : g.rule r = ⟨.silent, e⟩) :
    g.Reads (.rule r) c s o ↔ g.Reads (.part true e) c s o := by
  constructor
  · intro h
    cases h with
    | silent hr' h =>
        obtain rfl : _ = e := congrArg Rule.body (hr'.symm.trans hr)
        exact h
    | named_some hr' hk | named_none hr' hk =>
        exact absurd (congrArg Rule.kind (hr'.symm.trans hr)) hk
  · exact .silent hr

theorem reads_named {r : R} {k : RuleKind} (hr : g.rule r = ⟨k, e⟩) (hk : k ≠ .silent) :
    g.Reads (.rule r) c s o ↔
      ∃ o', g.Reads (.part k.spaced e) (k.inner c) { s with nodes := [] } o' ∧
        o = o'.map (s.close r (k.keeps c)) := by
  constructor
  · intro h
    cases h with
    | silent hr' => exact absurd (congrArg Rule.kind (hr.symm.trans hr')) hk
    | named_some hr' _ h | named_none hr' _ h =>
        obtain rfl : _ = k := congrArg Rule.kind (hr'.symm.trans hr)
        obtain rfl : _ = e := congrArg Rule.body (hr'.symm.trans hr)
        exact ⟨_, h, rfl⟩
  · rintro ⟨_ | s', h, rfl⟩
    · exact .named_none hr hk h
    · exact .named_some hr hk h

theorem reads_cat_some : g.Reads (.part b (.cat e₁ e₂)) c s (some s') ↔
    ∃ s₁ s₂, g.Reads (.part b e₁) c s (some s₁) ∧ g.Reads (.gap b) c s₁ (some s₂) ∧
      g.Reads (.part b e₂) c s₂ (some s') := by
  rw [reads_cat]
  constructor
  · rintro (⟨_, h⟩ | ⟨s₁, h₁, ⟨_, h⟩ | ⟨s₂, h₂, h₃⟩⟩)
    · cases h
    · cases h
    · exact ⟨s₁, s₂, h₁, h₂, h₃⟩
  · rintro ⟨s₁, s₂, h₁, h₂, h₃⟩
    exact .inr ⟨s₁, h₁, .inr ⟨s₂, h₂, h₃⟩⟩

theorem reads_normal_some {r : R} (hr : g.rule r = ⟨.normal, e⟩) :
    g.Reads (.rule r) c s (some s') ↔
      ∃ s₁, g.Reads (.part true e) c { s with nodes := [] } (some s₁) ∧
        s' = s.close r c.keepsNodes s₁ := by
  rw [reads_named hr nofun]
  constructor
  · rintro ⟨o', h, ho⟩
    obtain ⟨s₁, rfl, rfl⟩ := Option.map_eq_some_iff.mp ho.symm
    exact ⟨s₁, h, rfl⟩
  · rintro ⟨s₁, h, rfl⟩
    exact ⟨some s₁, h, rfl⟩

theorem exists_reads_of_choice : ∀ {es : List (Expr R)},
    g.Reads (.part b (.choice es)) c s (some s') → ∃ e ∈ es, g.Reads (.part b e) c s (some s')
  | [], h => by
      rcases reads_notAhead.mp h with ⟨_, _, h⟩ | ⟨h, _⟩
      · cases h
      · cases (reads_leaf (e := .word []) rfl).mp h
  | [e], h => ⟨e, List.mem_cons_self, h⟩
  | e :: e' :: es, h => by
      rcases reads_alt.mp h with ⟨_, h, he⟩ | ⟨_, h⟩
      · cases he
        exact ⟨e, List.mem_cons_self, h⟩
      · obtain ⟨e'', he'', h⟩ := exists_reads_of_choice h
        exact ⟨e'', List.mem_cons_of_mem e he'', h⟩

/-- An ordered choice reads what one of its alternatives reads, where all others fail. -/
theorem reads_choice {e : Expr R} : ∀ {es : List (Expr R)}, e ∈ es →
    g.Reads (.part b e) c s (some s') →
    (∀ e' ∈ es, e' ≠ e → g.Reads (.part b e') c s none) →
    g.Reads (.part b (.choice es)) c s (some s')
  | [_], hm, h, _ => by
      rw [List.mem_singleton] at hm
      subst hm
      exact h
  | e₁ :: e₂ :: es, hm, h, hn => by
      by_cases he : e₁ = e
      · subst he
        exact .alt_left h
      · have hm : e ∈ e₂ :: es := (List.mem_cons.mp hm).resolve_left (Ne.symm he)
        refine .alt_right (hn e₁ List.mem_cons_self he) (reads_choice hm h fun e' he' => ?_)
        exact hn e' (List.mem_cons_of_mem e₁ he')

theorem reads_choice_none : ∀ {es : List (Expr R)},
    (∀ e ∈ es, g.Reads (.part b e) c s none) → g.Reads (.part b (.choice es)) c s none
  | [], _ => .notAhead_some (.leaf rfl)
  | [e], h => h e List.mem_cons_self
  | e₁ :: _ :: _, h =>
      .alt_right (h e₁ List.mem_cons_self)
        (reads_choice_none fun e he => h e (List.mem_cons_of_mem e₁ he))

/-- A task ends in one way only. -/
theorem Reads.unique {t : Task R} {o' : Option (State R)} (h : g.Reads t c s o)
    (h' : g.Reads t c s o') : o = o' := by
  induction h generalizing o' with
  | leaf h => exact ((reads_leaf h).mp h').symm
  | ref _ ih => exact ih (reads_ref.mp h')
  | cat _ _ _ ih₁ ih₂ ih₃ =>
      obtain ⟨h₁, _⟩ | ⟨s₁, h₁, ⟨h₂, _⟩ | ⟨s₂, h₂, h₃⟩⟩ := reads_cat.mp h'
      · cases ih₁ h₁
      · cases ih₁ h₁; cases ih₂ h₂
      · cases ih₁ h₁; cases ih₂ h₂; exact ih₃ h₃
  | cat_left _ ih =>
      obtain ⟨_, rfl⟩ | ⟨s₁, h₁, _⟩ := reads_cat.mp h'
      · rfl
      · cases ih h₁
  | cat_gap _ _ ih₁ ih₂ =>
      obtain ⟨_, rfl⟩ | ⟨s₁, h₁, ⟨_, rfl⟩ | ⟨s₂, h₂, _⟩⟩ := reads_cat.mp h'
      · rfl
      · rfl
      · cases ih₁ h₁; cases ih₂ h₂
  | group _ ih => exact ih (reads_group.mp h')
  | alt_left _ ih =>
      obtain ⟨s', h, rfl⟩ | ⟨h, _⟩ := reads_alt.mp h'
      · exact ih h
      · cases ih h
  | alt_right _ _ ih₁ ih₂ =>
      obtain ⟨s', h, _⟩ | ⟨_, h⟩ := reads_alt.mp h'
      · cases ih₁ h
      · exact ih₂ h
  | opt_some _ ih =>
      obtain ⟨s', h, rfl⟩ | ⟨h, _⟩ := reads_opt.mp h'
      · exact ih h
      · cases ih h
  | opt_none _ ih =>
      obtain ⟨s', h, _⟩ | ⟨_, rfl⟩ := reads_opt.mp h'
      · cases ih h
      · rfl
  | star_some _ _ ih₁ ih₂ =>
      obtain ⟨s₁, h₁, h₂⟩ | ⟨h, _⟩ := reads_star.mp h'
      · cases ih₁ h₁; exact ih₂ h₂
      · cases ih₁ h
  | star_none _ ih =>
      obtain ⟨s₁, h, _⟩ | ⟨_, rfl⟩ := reads_star.mp h'
      · cases ih h
      · rfl
  | round _ _ _ ih₁ ih₂ ih₃ =>
      obtain ⟨h₁, _⟩ | ⟨s₁, h₁, ⟨h₂, _⟩ | ⟨s₂, h₂, h₃⟩⟩ := reads_rounds.mp h'
      · cases ih₁ h₁
      · cases ih₁ h₁; cases ih₂ h₂
      · cases ih₁ h₁; cases ih₂ h₂; exact ih₃ h₃
  | rounds_end _ _ ih₁ ih₂ =>
      obtain ⟨_, rfl⟩ | ⟨s₁, h₁, ⟨_, rfl⟩ | ⟨s₂, h₂, _⟩⟩ := reads_rounds.mp h'
      · rfl
      · rfl
      · cases ih₁ h₁; cases ih₂ h₂
  | rounds_gap _ ih =>
      obtain ⟨_, rfl⟩ | ⟨s₁, h₁, _⟩ := reads_rounds.mp h'
      · rfl
      · cases ih h₁
  | ahead_some _ ih =>
      obtain ⟨s', _, rfl⟩ | ⟨h, _⟩ := reads_ahead.mp h'
      · rfl
      · cases ih h
  | ahead_none _ ih =>
      obtain ⟨s', h, _⟩ | ⟨_, rfl⟩ := reads_ahead.mp h'
      · cases ih h
      · rfl
  | notAhead_some _ ih =>
      obtain ⟨s', _, rfl⟩ | ⟨h, _⟩ := reads_notAhead.mp h'
      · rfl
      · cases ih h
  | notAhead_none _ ih =>
      obtain ⟨s', h, _⟩ | ⟨_, rfl⟩ := reads_notAhead.mp h'
      · cases ih h
      · rfl
  | mark_some _ ih =>
      obtain ⟨s', h, rfl⟩ | ⟨h, _⟩ := reads_mark.mp h'
      · cases ih h; rfl
      · cases ih h
  | mark_none _ ih =>
      obtain ⟨s', h, _⟩ | ⟨_, rfl⟩ := reads_mark.mp h'
      · cases ih h
      · rfl
  | gap_tight => exact (reads_gap_tight.mp h').symm
  | gap_closed hc => exact ((reads_gap_closed hc).mp h').symm
  | gap_free hc _ ih => exact ih ((reads_gap_free hc).mp h')
  | silent hr _ ih => exact ih ((reads_silent hr).mp h')
  | named_some hr hk _ ih | named_none hr hk _ ih =>
      obtain ⟨o'', h, rfl⟩ := (reads_named hr hk).mp h'
      rw [← ih h]; rfl

end Grammar

/-! ### Runs -/

/-- How a run ended, unless it was abandoned. -/
def Outcome.answer? : Outcome R → Option (Option (State R))
  | .matched s _ => some (some s)
  | .failed _ => some none
  | .abandoned _ => none

/-- Go on after a match or a failure. -/
def Outcome.next (f : State R → Ledger R → Outcome R) (g : Ledger R → Outcome R) :
    Outcome R → Outcome R
  | .matched s l => f s l
  | .failed l => g l
  | .abandoned why => .abandoned why

/-- The ledger with one more unit. -/
abbrev Ledger.charge (l : Ledger R) : Ledger R := { l with calls := l.calls + 1 }

theorem Step.counted_of_not_exceeded {refusal : Refusal} {k : Step R} {c : Context} {s : State R}
    {l : Ledger R} (h : ¬c.exceeded l.charge = true) :
    Step.counted refusal k c s l = k c s l.charge := if_neg h

theorem Outcome.answer?_elim (o : Option (State R)) (l : Ledger R) :
    (o.elim (.failed l) (.matched · l) : Outcome R).answer? = some o := by
  cases o <;> rfl

/-- Every answer of `k` is how the task ends. -/
def Step.Follows (g : Grammar R) (k : Step R) (t : Task R) : Prop :=
  ∀ c s l o, (k c s l).answer? = some o → g.Reads t c s o

theorem Step.answer?_counted {k : Step R} {c : Context} {s : State R} {l : Ledger R}
    {o : Option (State R)} (h : (Step.counted .abandon k c s l).answer? = some o) :
    ∃ l', (k c s l').answer? = some o := by
  simp only [Step.counted] at h
  split at h
  · cases h
  · exact ⟨_, h⟩

section Runs

open Grammar

variable {g : Grammar R} {call : R → Step R} {skip : Step R} {b : Bool}

/-- Going round until a round fails reads the rounds of a repetition. -/
theorem Step.repeated_reads {k : Step R} {e : Expr R} {c : Context}
    (hk : ∀ s l o, (k c s l).answer? = some o →
      g.Reads (.gap b) c s none ∧ o = none ∨
        ∃ s₁, g.Reads (.gap b) c s (some s₁) ∧ g.Reads (.part b e) c s₁ o) :
    ∀ n s l o, (Step.repeated k c n s l).answer? = some o → g.Reads (.rounds b e) c s o := by
  intro n
  induction n with
  | zero => intro s l o h; cases h
  | succ n ih =>
      intro s l o h
      rw [Step.repeated] at h
      cases hr : k c s l with
      | matched s₂ l₂ =>
          rw [hr] at h
          obtain ⟨_, ho⟩ | ⟨s₁, h₁, h₂⟩ := hk s l (some s₂) (by rw [hr]; rfl)
          · cases ho
          · exact .round h₁ h₂ (ih s₂ l₂ o h)
      | failed l₂ =>
          rw [hr] at h
          cases h
          obtain ⟨h₁, _⟩ | ⟨s₁, h₁, h₂⟩ := hk s l none (by rw [hr]; rfl)
          · exact .rounds_gap h₁
          · exact .rounds_end h₁ h₂
      | abandoned why => rw [hr] at h; cases h

theorem Expr.run_leaf {refusal : Refusal} {e : Expr R} {c : Context} {s : State R} {l : Ledger R}
    {o : Option (State R)} (h : e.leaf? s = some o) :
    e.run refusal call skip b c s l = o.elim (.failed l) (.matched · l) := by
  cases e with
  | word w =>
      cases h
      rw [Expr.run]
      cases s.strip? w <;> rfl
  | caseless w =>
      cases h
      rw [Expr.run]
      cases stripCaseless w s.rest <;> rfl
  | char k =>
      cases h
      rw [Expr.run]
      cases s.rest with
      | nil => rfl
      | cons ch rest => simp only; split <;> rfl
  | startOfInput | endOfInput =>
      cases h
      rw [Expr.run]
      split <;> rfl
  | upTo stops => cases h; rfl
  | peek =>
      cases h
      rw [Expr.run]
      cases s.marks with
      | nil => rfl
      | cons w marks => simp only; cases s.strip? w <;> rfl
  | pop =>
      cases h
      rw [Expr.run]
      cases s.marks with
      | nil => rfl
      | cons w marks => simp only; cases s.strip? w <;> rfl
  | drop =>
      cases h
      rw [Expr.run]
      cases s.marks <;> rfl
  | _ => cases h

/-- An expression is run as it reads, if rules and trivia are. -/
theorem Expr.run_follows (hcall : ∀ r, Step.Follows g (call r) (.rule r))
    (hskip : b = true → Step.Follows g skip (.gap true)) (e : Expr R) :
    Step.Follows g (e.run .abandon call skip b) (.part b e) := by
  induction e with
  | word | caseless | char | startOfInput | endOfInput | upTo | peek | pop | drop =>
      intro c s l o h
      rw [Expr.run_leaf rfl, Outcome.answer?_elim] at h
      cases h
      exact .leaf rfl
  | ref r =>
      intro c s l o h
      exact .ref (hcall r c s l o h)
  | cat e₁ e₂ ih₁ ih₂ =>
      intro c s l o h
      rw [Expr.run] at h
      cases h₁ : e₁.run .abandon call skip b c s l with
      | matched s₁ l₁ =>
          have hr₁ := ih₁ c s l (some s₁) (by rw [h₁]; rfl)
          rw [h₁] at h
          cases b with
          | false => exact .cat hr₁ .gap_tight (ih₂ c s₁ l₁ o h)
          | true =>
              simp only [↓reduceIte] at h
              cases h₂ : skip c s₁ l₁ with
              | matched s₂ l₂ =>
                  rw [h₂] at h
                  exact .cat hr₁ (hskip rfl c s₁ l₁ (some s₂) (by rw [h₂]; rfl)) (ih₂ c s₂ l₂ o h)
              | failed l₂ =>
                  rw [h₂] at h
                  cases h
                  exact .cat_gap hr₁ (hskip rfl c s₁ l₁ none (by rw [h₂]; rfl))
              | abandoned why => rw [h₂] at h; cases h
      | failed l₁ =>
          rw [h₁] at h
          cases h
          exact .cat_left (ih₁ c s l none (by rw [h₁]; rfl))
      | abandoned why => rw [h₁] at h; cases h
  | group e ih =>
      intro c s l o h
      obtain ⟨l', h⟩ := Step.answer?_counted h
      exact .group (ih c s l' o h)
  | alt e₁ e₂ ih₁ ih₂ =>
      intro c s l o h
      rw [Expr.run] at h
      cases h₁ : e₁.run .abandon call skip b c s l with
      | matched s₁ l₁ =>
          rw [h₁] at h
          cases h
          exact .alt_left (ih₁ c s l (some s₁) (by rw [h₁]; rfl))
      | failed l₁ =>
          rw [h₁] at h
          exact .alt_right (ih₁ c s l none (by rw [h₁]; rfl)) (ih₂ c s l₁ o h)
      | abandoned why => rw [h₁] at h; cases h
  | opt e ih =>
      intro c s l o h
      obtain ⟨l', h⟩ := Step.answer?_counted h
      cases h₁ : e.run .abandon call skip b c s l' with
      | matched s₁ l₁ =>
          simp only [h₁] at h
          cases h
          exact .opt_some (ih c s l' (some s₁) (by rw [h₁]; rfl))
      | failed l₁ =>
          simp only [h₁] at h
          cases h
          exact .opt_none (ih c s l' none (by rw [h₁]; rfl))
      | abandoned why => simp only [h₁] at h; cases h
  | star e ih =>
      intro c s l o h
      rw [Expr.run] at h
      cases b with
      | false =>
          simp only [Bool.false_eq_true, ↓reduceIte] at h
          obtain ⟨l', h⟩ := Step.answer?_counted h
          have hr := Step.repeated_reads (g := g) (b := false) (e := e)
            (fun s l o h => .inr ⟨s, .gap_tight, ih c s l o h⟩) _ _ _ _ h
          obtain ⟨h₁, _⟩ | ⟨s₁, h₁, h₂⟩ := reads_rounds.mp hr
          · cases reads_gap_tight.mp h₁
          · cases reads_gap_tight.mp h₁
            obtain ⟨h₂, rfl⟩ | ⟨s₂, h₂, h₃⟩ := h₂
            · exact .star_none h₂
            · exact .star_some h₂ h₃
      | true =>
          simp only [↓reduceIte] at h
          obtain ⟨l₁, h⟩ := Step.answer?_counted h
          obtain ⟨l₂, h⟩ := Step.answer?_counted h
          cases h₁ : e.run .abandon call skip true c s l₂ with
          | matched s₁ l₃ =>
              simp only [h₁] at h
              obtain ⟨l₄, h⟩ := Step.answer?_counted h
              refine .star_some (ih c s l₂ (some s₁) (by rw [h₁]; rfl)) ?_
              refine Step.repeated_reads (fun s l o h => ?_) _ _ _ _ h
              obtain ⟨l', h⟩ := Step.answer?_counted h
              cases h₂ : skip c s l' with
              | matched s₂ l₂ =>
                  simp only [h₂] at h
                  exact .inr ⟨s₂, hskip rfl c s l' (some s₂) (by rw [h₂]; rfl), ih c s₂ l₂ o h⟩
              | failed l₂ =>
                  simp only [h₂] at h
                  cases h
                  exact .inl ⟨hskip rfl c s l' none (by rw [h₂]; rfl), rfl⟩
              | abandoned why => simp only [h₂] at h; cases h
          | failed l₃ =>
              simp only [h₁] at h
              cases h
              exact .star_none (ih c s l₂ none (by rw [h₁]; rfl))
          | abandoned why => simp only [h₁] at h; cases h
  | ahead e ih =>
      intro c s l o h
      obtain ⟨l', h⟩ := Step.answer?_counted h
      cases h₁ : e.run .abandon call skip b { c with lookahead := c.lookahead.affirm } s l' with
      | matched s₁ l₁ =>
          simp only [h₁] at h
          cases h
          exact .ahead_some (ih _ s l' (some s₁) (by rw [h₁]; rfl))
      | failed l₁ =>
          simp only [h₁] at h
          cases h
          exact .ahead_none (ih _ s l' none (by rw [h₁]; rfl))
      | abandoned why => simp only [h₁] at h; cases h
  | notAhead e ih =>
      intro c s l o h
      obtain ⟨l', h⟩ := Step.answer?_counted h
      cases h₁ : e.run .abandon call skip b { c with lookahead := c.lookahead.negate } s l' with
      | matched s₁ l₁ =>
          simp only [h₁] at h
          cases h
          exact .notAhead_some (ih _ s l' (some s₁) (by rw [h₁]; rfl))
      | failed l₁ =>
          simp only [h₁] at h
          cases h
          exact .notAhead_none (ih _ s l' none (by rw [h₁]; rfl))
      | abandoned why => simp only [h₁] at h; cases h
  | mark e ih =>
      intro c s l o h
      obtain ⟨l', h⟩ := Step.answer?_counted h
      cases h₁ : e.run .abandon call skip b c s l' with
      | matched s₁ l₁ =>
          simp only [h₁] at h
          cases h
          exact .mark_some (ih c s l' (some s₁) (by rw [h₁]; rfl))
      | failed l₁ =>
          simp only [h₁] at h
          cases h
          exact .mark_none (ih c s l' none (by rw [h₁]; rfl))
      | abandoned why => simp only [h₁] at h; cases h

theorem Grammar.skip_follows (hcall : ∀ r, Step.Follows g (call r) (.rule r)) :
    Step.Follows g (g.skip .abandon call) (.gap true) := by
  intro c s l o h
  unfold Grammar.skip at h
  split at h
  next hc => exact .gap_free hc (Expr.run_follows (b := false) hcall (by simp) g.trivia c s l o h)
  next hc => cases h; exact .gap_closed hc

theorem Step.answer?_named {r : R} {k : Step R} {c : Context} {s : State R} {l : Ledger R}
    {o : Option (State R)} (h : (Step.named .abandon r k c s l).answer? = some o) :
    ∃ l' o', (k c { s with nodes := [] } l').answer? = some o' ∧
      o = o'.map (s.close r c.keepsNodes) := by
  obtain ⟨l', h⟩ := Step.answer?_counted h
  refine ⟨l', ?_⟩
  cases hk : k c { s with nodes := [] } l' with
  | matched s₁ l₁ => simp only [hk] at h; cases h; exact ⟨_, rfl, rfl⟩
  | failed l₁ => simp only [hk] at h; cases h; exact ⟨_, rfl, rfl⟩
  | abandoned why => simp only [hk] at h; cases h

/-- A rule is run as it reads, however many rules may be open. -/
theorem Grammar.invoke_follows : ∀ n r, Step.Follows g (g.invoke .abandon n r) (.rule r) := by
  intro n
  induction n with
  | zero => intro r c s l o h; cases h
  | succ n ih =>
      intro r c s l o h
      have hskip := g.skip_follows ih
      rw [Grammar.invoke] at h
      rcases hr : g.rule r with ⟨k, e⟩
      rw [hr] at h
      cases k with
      | normal =>
          obtain ⟨l', o', h', rfl⟩ := Step.answer?_named h
          refine (Grammar.reads_named hr (by decide)).mpr ⟨o', ?_, rfl⟩
          exact Expr.run_follows ih (fun _ => hskip) e _ _ _ _ h'
      | silent => exact .silent hr (Expr.run_follows ih (fun _ => hskip) e c s l o h)
      | atomic =>
          obtain ⟨l', o', h', rfl⟩ := Step.answer?_named h
          obtain ⟨l'', h''⟩ := Step.answer?_counted h'
          refine (Grammar.reads_named hr (by decide)).mpr ⟨o', ?_, rfl⟩
          exact Expr.run_follows (b := false) ih (by simp) e _ _ _ _ h''
      | compound =>
          obtain ⟨l', h'⟩ := Step.answer?_counted h
          obtain ⟨l'', o', h'', rfl⟩ := Step.answer?_named h'
          refine (Grammar.reads_named hr (by decide)).mpr ⟨o', ?_, rfl⟩
          exact Expr.run_follows (b := false) ih (by simp) e _ _ _ _ h''

end Runs

/-! ### Parses -/

namespace Grammar

variable [DecidableEq R] (g : Grammar R)

theorem reads_of_parse {limit : Option Nat} {source : List Char} {ms : List (Match R)}
    (h : g.parse limit source = .ok ms) :
    ∃ s, g.Reads (.rule g.start) (initialContext limit source) (initialState source) (some s) ∧
      ms = s.nodes.reverse := by
  unfold parse parseWithin at h
  split at h
  next s l hr =>
    cases h
    exact ⟨s, invoke_follows _ _ _ _ {} _ (by rw [hr]; rfl), rfl⟩
  next => split at h <;> cases h
  next => cases h

/-- A parse that is not abandoned succeeds where the start rule reads. -/
theorem parse_of_reads {limit : Option Nat} {source : List Char} {s : State R}
    (ha : ∀ why, g.parse limit source ≠ .error (.abandoned why))
    (h : g.Reads (.rule g.start) (initialContext limit source) (initialState source) (some s)) :
    g.parse limit source = .ok s.nodes.reverse := by
  unfold parse parseWithin at ha ⊢
  split
  next s' l hr =>
    have hs := h.unique (invoke_follows _ _ _ _ {} (some s') (by rw [hr]; rfl))
    rw [Option.some.inj hs]
  next l hr =>
    have hs := h.unique (invoke_follows _ _ _ _ {} none (by rw [hr]; rfl))
    cases hs
  next why hr =>
    rw [hr] at ha
    exact absurd rfl (ha why)

end Grammar

end ConcreteSyntax
