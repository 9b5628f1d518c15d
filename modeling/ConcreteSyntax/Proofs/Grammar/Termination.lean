import ConcreteSyntax.Proofs.Grammar.Progress

/-! # Termination

A grammar ends on every input without any limit if no rule leads back to itself before a character is read
and every repetition moves on in each round.

* **Visits** (`Visit`, `Grammar.Enters`).  A task with its context and its state.  Running it enters other visits,
  one for each part that is really run.  No others are needed: where all that is entered has a reading, the
  task has one (`Grammar.exists_reads_of_acc`).
* **Leads** (`Expr.leadsOnly`, `Grammar.shallow`).  The rules that can be entered before a character is read.
  Where chains of leads have bounded length, no rule is on such a chain twice.
* **Descent** (`Grammar.Enters.descends`).  What one entry does in a grammar whose repetitions move on: it
  leaves less to read, or it goes down a chain of leads, or it goes to a smaller part.

So entering visits ends (`Grammar.Grounded.acc`), every task has a reading (`Grammar.Grounded.exists_reads`), and a rule
that is open is entered again only further on (`Grammar.Grounded.pos_lt_of_reenters`). -/

namespace ConcreteSyntax

variable {R : Type}

/-! ### Visits -/

/-- A task that is run in a context from a state. -/
structure Visit (R : Type) where
  task : Task R
  context : Context
  state : State R

/-- Running the first visit enters the second. -/
inductive Grammar.Enters (g : Grammar R) : Visit R → Visit R → Prop
  | ref {b r c s} : Enters g ⟨.part b (.ref r), c, s⟩ ⟨.rule r, c, s⟩
  | cat_left {b e₁ e₂ c s} : Enters g ⟨.part b (.cat e₁ e₂), c, s⟩ ⟨.part b e₁, c, s⟩
  | cat_gap {b e₁ e₂ c s s₁} : g.Reads (.part b e₁) c s (some s₁) →
      Enters g ⟨.part b (.cat e₁ e₂), c, s⟩ ⟨.gap b, c, s₁⟩
  | cat_right {b e₁ e₂ c s s₁ s₂} : g.Reads (.part b e₁) c s (some s₁) →
      g.Reads (.gap b) c s₁ (some s₂) → Enters g ⟨.part b (.cat e₁ e₂), c, s⟩ ⟨.part b e₂, c, s₂⟩
  | group {b e c s} : Enters g ⟨.part b (.group e), c, s⟩ ⟨.part b e, c, s⟩
  | alt_left {b e₁ e₂ c s} : Enters g ⟨.part b (.alt e₁ e₂), c, s⟩ ⟨.part b e₁, c, s⟩
  | alt_right {b e₁ e₂ c s} : g.Reads (.part b e₁) c s none →
      Enters g ⟨.part b (.alt e₁ e₂), c, s⟩ ⟨.part b e₂, c, s⟩
  | opt {b e c s} : Enters g ⟨.part b (.opt e), c, s⟩ ⟨.part b e, c, s⟩
  | star_first {b e c s} : Enters g ⟨.part b (.star e), c, s⟩ ⟨.part b e, c, s⟩
  | star_rounds {b e c s s₁} : g.Reads (.part b e) c s (some s₁) →
      Enters g ⟨.part b (.star e), c, s⟩ ⟨.rounds b e, c, s₁⟩
  | round_gap {b e c s} : Enters g ⟨.rounds b e, c, s⟩ ⟨.gap b, c, s⟩
  | round_part {b e c s s₁} : g.Reads (.gap b) c s (some s₁) →
      Enters g ⟨.rounds b e, c, s⟩ ⟨.part b e, c, s₁⟩
  | rounds {b e c s s₁ s₂} : g.Reads (.gap b) c s (some s₁) → g.Reads (.part b e) c s₁ (some s₂) →
      Enters g ⟨.rounds b e, c, s⟩ ⟨.rounds b e, c, s₂⟩
  | ahead {b e c s} : Enters g ⟨.part b (.ahead e), c, s⟩
      ⟨.part b e, { c with lookahead := c.lookahead.affirm }, s⟩
  | notAhead {b e c s} : Enters g ⟨.part b (.notAhead e), c, s⟩
      ⟨.part b e, { c with lookahead := c.lookahead.negate }, s⟩
  | mark {b e c s} : Enters g ⟨.part b (.mark e), c, s⟩ ⟨.part b e, c, s⟩
  | gap {c s} : c.atomicity = .free → Enters g ⟨.gap true, c, s⟩ ⟨.part false g.trivia, c, s⟩
  | silent {r e c s} : g.rule r = ⟨.silent, e⟩ → Enters g ⟨.rule r, c, s⟩ ⟨.part true e, c, s⟩
  | named {r k e c s} : g.rule r = ⟨k, e⟩ → k ≠ .silent →
      Enters g ⟨.rule r, c, s⟩ ⟨.part k.spaced e, k.inner c, { s with nodes := [] }⟩

section Visits

variable {g : Grammar R} {v v' : Visit R}

theorem Grammar.Enters.advances (h : g.Enters v v') : v.state.Advances v'.state := by
  cases h with
  | cat_gap h₁ | star_rounds h₁ | round_part h₁ => exact h₁.advances _ rfl
  | cat_right h₁ h₂ | rounds h₁ h₂ => exact (h₁.advances _ rfl).trans (h₂.advances _ rfl)
  | named => exact ⟨[], rfl, rfl⟩
  | _ => exact .refl _

/-- A task has a reading if all that it enters has one. -/
theorem Grammar.exists_reads_of_acc (h : Acc (fun v' v => g.Enters v v') v) :
    ∃ o, g.Reads v.task v.context v.state o := by
  induction h with
  | intro v _ ih =>
  obtain ⟨t, c, s⟩ := v
  cases t with
  | rule r =>
      rcases hr : g.rule r with ⟨k, e⟩
      by_cases hk : k = .silent
      · subst hk
        obtain ⟨o, ho⟩ := ih _ (.silent hr)
        exact ⟨o, .silent hr ho⟩
      · obtain ⟨o, ho⟩ := ih _ (.named hr hk)
        exact ⟨_, (reads_named hr hk).mpr ⟨o, ho, rfl⟩⟩
  | gap b =>
      cases b with
      | false => exact ⟨_, .gap_tight⟩
      | true =>
          by_cases hc : c.atomicity = .free
          · obtain ⟨o, ho⟩ := ih _ (.gap hc)
            exact ⟨o, .gap_free hc ho⟩
          · exact ⟨_, .gap_closed hc⟩
  | rounds b e =>
      obtain ⟨_ | s₁, h₁⟩ := ih _ .round_gap
      · exact ⟨_, .rounds_gap h₁⟩
      · obtain ⟨_ | s₂, h₂⟩ := ih _ (.round_part h₁)
        · exact ⟨_, .rounds_end h₁ h₂⟩
        · obtain ⟨o, h₃⟩ := ih _ (.rounds h₁ h₂)
          exact ⟨o, .round h₁ h₂ h₃⟩
  | part b e =>
      cases e with
      | ref r =>
          obtain ⟨o, ho⟩ := ih _ .ref
          exact ⟨o, .ref ho⟩
      | cat e₁ e₂ =>
          obtain ⟨_ | s₁, h₁⟩ := ih _ .cat_left
          · exact ⟨_, .cat_left h₁⟩
          · obtain ⟨_ | s₂, h₂⟩ := ih _ (.cat_gap h₁)
            · exact ⟨_, .cat_gap h₁ h₂⟩
            · obtain ⟨o, h₃⟩ := ih _ (.cat_right h₁ h₂)
              exact ⟨o, .cat h₁ h₂ h₃⟩
      | group e =>
          obtain ⟨o, ho⟩ := ih _ .group
          exact ⟨o, .group ho⟩
      | alt e₁ e₂ =>
          obtain ⟨_ | s₁, h₁⟩ := ih _ .alt_left
          · obtain ⟨o, h₂⟩ := ih _ (.alt_right h₁)
            exact ⟨o, .alt_right h₁ h₂⟩
          · exact ⟨_, .alt_left h₁⟩
      | opt e =>
          obtain ⟨_ | s₁, h₁⟩ := ih _ .opt
          · exact ⟨_, .opt_none h₁⟩
          · exact ⟨_, .opt_some h₁⟩
      | star e =>
          obtain ⟨_ | s₁, h₁⟩ := ih _ .star_first
          · exact ⟨_, .star_none h₁⟩
          · obtain ⟨o, h₂⟩ := ih _ (.star_rounds h₁)
            exact ⟨o, .star_some h₁ h₂⟩
      | ahead e =>
          obtain ⟨_ | s₁, h₁⟩ := ih _ .ahead
          · exact ⟨_, .ahead_none h₁⟩
          · exact ⟨_, .ahead_some h₁⟩
      | notAhead e =>
          obtain ⟨_ | s₁, h₁⟩ := ih _ .notAhead
          · exact ⟨_, .notAhead_none h₁⟩
          · exact ⟨_, .notAhead_some h₁⟩
      | mark e =>
          obtain ⟨_ | s₁, h₁⟩ := ih _ .mark
          · exact ⟨_, .mark_none h₁⟩
          · exact ⟨_, .mark_some h₁⟩
      | word | caseless | char | startOfInput | endOfInput | upTo | peek | pop | drop =>
          exact ⟨_, .leaf rfl⟩

end Visits

/-! ### Leads -/

/-- Whether all rules have a property that an expression can enter before a character is read; `gap` tells it
of what stands between two parts. -/
def Expr.leadsOnly (known : R → Bool) (gap : Bool) (p : R → Bool) : Expr R → Bool
  | .ref r => p r
  | .cat e₁ e₂ => e₁.leadsOnly known gap p &&
      (e₁.consumes known || gap && e₂.leadsOnly known gap p)
  | .alt e₁ e₂ => e₁.leadsOnly known gap p && e₂.leadsOnly known gap p
  | .group e | .opt e | .star e | .ahead e | .notAhead e | .mark e => e.leadsOnly known gap p
  | _ => true

/-- The number of parts of an expression. -/
def Expr.size : Expr R → Nat
  | .cat e₁ e₂ | .alt e₁ e₂ => e₁.size + e₂.size + 1
  | .group e | .opt e | .star e | .ahead e | .notAhead e | .mark e => e.size + 1
  | _ => 1

namespace Grammar

variable (g : Grammar R) (known : R → Bool)

/-- Whether all rules have a property that trivia can enter before a character is read. -/
def gapLeadsOnly (p : R → Bool) : Bool → Bool
  | true => g.trivia.leadsOnly known true p
  | false => true

/-- Whether all rules have a property that a task can enter before a character is read. -/
def leadsOnly (p : R → Bool) : Task R → Bool
  | .part b e => e.leadsOnly known (g.gapLeadsOnly known p b) p
  | .rule r => p r
  | .gap b => g.gapLeadsOnly known p b
  | .rounds b e => g.gapLeadsOnly known p b && e.leadsOnly known (g.gapLeadsOnly known p b) p

/-- Whether a rule leads to less than `n` rules one inside another. -/
def shallow : Nat → R → Bool
  | 0, _ => false
  | n + 1, r => g.leadsOnly known (shallow n) (.part (g.rule r).kind.spaced (g.rule r).body)

/-- All repetitions move on, and chains of leads have bounded length. -/
structure Grounded (depth : Nat) : Prop extends g.Progresses known where
  shallow : ∀ r, g.shallow known depth r = true

/-- The size of what stands between two parts. -/
def gapWeight : Bool → Nat
  | true => g.trivia.size + 1
  | false => 0

/-- What an entry makes smaller where it reads nothing and goes down no chain of leads. -/
def weight : Task R → Nat
  | .part b e => e.size + g.gapWeight b
  | .rule _ => 0
  | .gap b => g.gapWeight b
  | .rounds b e => e.size + g.gapWeight b + 1

end Grammar

section Leads

variable {g : Grammar R} {known : R → Bool} {p : R → Bool}

theorem Expr.leadsOnly_of_forall (hp : ∀ r, p r = true) (e : Expr R) :
    e.leadsOnly known true p = true := by
  induction e with
  | ref r => exact hp r
  | cat e₁ e₂ ih₁ ih₂ => simp [Expr.leadsOnly, ih₁, ih₂]
  | alt e₁ e₂ ih₁ ih₂ => simp [Expr.leadsOnly, ih₁, ih₂]
  | group e ih | opt e ih | star e ih | ahead e ih | notAhead e ih | mark e ih => exact ih
  | _ => rfl

theorem Grammar.leadsOnly_of_forall (hp : ∀ r, p r = true) (t : Task R) :
    g.leadsOnly known p t = true := by
  have hgap : ∀ b, g.gapLeadsOnly known p b = true := by
    intro b
    cases b with
    | true => exact Expr.leadsOnly_of_forall hp g.trivia
    | false => rfl
  cases t with
  | part b e => rw [leadsOnly, hgap, Expr.leadsOnly_of_forall hp]
  | rule r => exact hp r
  | gap b => exact hgap b
  | rounds b e => rw [leadsOnly, hgap, Expr.leadsOnly_of_forall hp, Bool.and_self]

end Leads

/-! ### Descent -/

theorem State.Advances.pos_lt {s s' : State R} (h : s.Advances s') (hlt : s'.rest.length < s.rest.length) :
    s.pos < s'.pos := by
  obtain ⟨w, hw, hp⟩ := h
  rw [hw, List.length_append] at hlt
  omega

section Descent

variable {g : Grammar R} {known : R → Bool} {v v' : Visit R} {n : Nat}

theorem Grammar.Enters.progresses (hg : g.Progresses known) (h : g.Enters v v')
    (hv : v.task.progresses known = true) : v'.task.progresses known = true := by
  cases h with
  | cat_left | alt_left => exact (Bool.and_eq_true_iff.mp hv).1
  | cat_right | alt_right | star_first | round_part => exact (Bool.and_eq_true_iff.mp hv).2
  | gap => exact hg.trivia
  | @silent r e c s hr =>
      have hbody := hg.body r
      rw [hr] at hbody
      exact hbody
  | @named r k e c s hr hk =>
      have hbody := hg.body r
      rw [hr] at hbody
      exact hbody
  | ref | cat_gap | round_gap => rfl
  | group | opt | star_rounds | rounds | ahead | notAhead | mark => exact hv

/-- **Descent.**  An entry leaves less to read, or goes down a chain of leads, or goes to a smaller part. -/
theorem Grammar.Enters.descends (hg : g.Progresses known) (h : g.Enters v v')
    (hv : v.task.progresses known = true) (hn : g.leadsOnly known (g.shallow known n) v.task = true) :
    v'.state.rest.length < v.state.rest.length ∨ ∃ m, g.leadsOnly known (g.shallow known m) v'.task = true ∧
      (m < n ∨ m = n ∧ g.weight v'.task < g.weight v.task) := by
  -- a part that reads nothing is one that need not, so it lets what follows it lead
  have hread : ∀ {b e c} {s s₁ : State R}, g.Reads (.part b e) c s (some s₁) →
      s₁.rest.length < s.rest.length ∨ e.consumes known = false := by
    intro b e c s s₁ h
    cases he : e.consumes known with
    | false => exact .inr rfl
    | true => exact .inl (hg.length_lt h he s₁ rfl)
  cases h with
  | ref | group | opt | star_first | ahead | notAhead | mark =>
      exact .inr ⟨n, hn, .inr ⟨rfl, by simp only [weight, Expr.size]; omega⟩⟩
  | cat_left | alt_left =>
      exact .inr ⟨n, (Bool.and_eq_true_iff.mp hn).1, .inr ⟨rfl, by simp only [weight, Expr.size]; omega⟩⟩
  | cat_gap h₁ =>
      rcases hread h₁ with hlt | he
      · exact .inl hlt
      · simp only [leadsOnly, Expr.leadsOnly, he, Bool.false_or, Bool.and_eq_true] at hn
        exact .inr ⟨n, hn.2.1, .inr ⟨rfl, by simp only [weight, Expr.size]; omega⟩⟩
  | cat_right h₁ h₂ =>
      have hle := (h₂.advances _ rfl).length_le
      rcases hread h₁ with hlt | he
      · exact .inl (Nat.lt_of_le_of_lt hle hlt)
      · simp only [leadsOnly, Expr.leadsOnly, he, Bool.false_or, Bool.and_eq_true] at hn
        exact .inr ⟨n, hn.2.2, .inr ⟨rfl, by simp only [weight, Expr.size]; omega⟩⟩
  | alt_right =>
      exact .inr ⟨n, (Bool.and_eq_true_iff.mp hn).2, .inr ⟨rfl, by simp only [weight, Expr.size]; omega⟩⟩
  | star_rounds h₁ => exact .inl (hg.length_lt h₁ (Bool.and_eq_true_iff.mp hv).1 _ rfl)
  | round_gap => exact .inr ⟨n, (Bool.and_eq_true_iff.mp hn).1, .inr ⟨rfl, by simp only [weight]; omega⟩⟩
  | round_part => exact .inr ⟨n, (Bool.and_eq_true_iff.mp hn).2, .inr ⟨rfl, by simp only [weight]; omega⟩⟩
  | rounds h₁ h₂ =>
      have hle := (h₁.advances _ rfl).length_le
      have hlt := hg.length_lt h₂ (Bool.and_eq_true_iff.mp hv).1 _ rfl
      exact .inl (Nat.lt_of_lt_of_le hlt hle)
  | gap => exact .inr ⟨n, hn, .inr ⟨rfl, by simp only [weight, gapWeight]; omega⟩⟩
  | @silent r e c s hr | @named r k e c s hr =>
      cases n with
      | zero => cases hn
      | succ m =>
          have hbody : g.leadsOnly known (g.shallow known m)
            (.part (g.rule r).kind.spaced (g.rule r).body) = true := hn
          rw [hr] at hbody
          exact .inr ⟨m, hbody, .inl (Nat.lt_succ_self m)⟩

namespace Grammar

theorem Grounded.acc {depth : Nat} (hg : g.Grounded known depth) (v : Visit R) (n : Nat)
    (hv : v.task.progresses known = true) (hn : g.leadsOnly known (g.shallow known n) v.task = true) :
    Acc (fun v' v => g.Enters v v') v := by
  refine ⟨v, fun v' h => ?_⟩
  have hv' := h.progresses hg.toProgresses hv
  have hle := h.advances.length_le
  rcases h.descends hg.toProgresses hv hn with hlt | ⟨m, hm, hdown⟩
  · exact hg.acc v' depth hv' (leadsOnly_of_forall hg.shallow _)
  · exact hg.acc v' m hv' hm
termination_by (v.state.rest.length, n, g.weight v.task)
decreasing_by
  · exact Prod.Lex.left _ _ hlt
  · simp only [Prod.lex_def]
    omega

theorem Grounded.exists_reads {depth : Nat} (hg : g.Grounded known depth) {t : Task R}
    (ht : t.progresses known = true) (c : Context) (s : State R) : ∃ o, g.Reads t c s o :=
  exists_reads_of_acc (hg.acc ⟨t, c, s⟩ depth ht (leadsOnly_of_forall hg.shallow t))

theorem Progresses.descends_of_chain (hg : g.Progresses known) (h : Relation.TransGen g.Enters v v')
    (hv : v.task.progresses known = true) (hn : g.leadsOnly known (g.shallow known n) v.task = true) :
    v'.task.progresses known = true ∧ v.state.Advances v'.state ∧
      (v'.state.rest.length < v.state.rest.length ∨ ∃ m, g.leadsOnly known (g.shallow known m) v'.task = true ∧
        (m < n ∨ m = n ∧ g.weight v'.task < g.weight v.task)) := by
  induction h with
  | single h => exact ⟨h.progresses hg hv, h.advances, h.descends hg hv hn⟩
  | tail _ h ih =>
      obtain ⟨hu, hadv, hdesc⟩ := ih
      have hle := hadv.length_le
      have hle' := h.advances.length_le
      refine ⟨h.progresses hg hu, hadv.trans h.advances, ?_⟩
      rcases hdesc with hlt | ⟨m, hm, hdown⟩
      · exact .inl (Nat.lt_of_le_of_lt hle' hlt)
      · rcases h.descends hg hu hm with hlt | ⟨m', hm', hdown'⟩
        · exact .inl (Nat.lt_of_lt_of_le hlt hle)
        · exact .inr ⟨m', hm', by omega⟩

/-- A rule that is open is entered again only further on. -/
theorem Grounded.pos_lt_of_reenters {depth : Nat} (hg : g.Grounded known depth) {r : R} {c c' : Context}
    {s s' : State R} (h : Relation.TransGen g.Enters ⟨.rule r, c, s⟩ ⟨.rule r, c', s'⟩) : s.pos < s'.pos := by
  -- where nothing was read, the bound on the leads of the rule could be lowered without end
  have hpos : ∀ n, g.shallow known n r = true → s.pos < s'.pos := by
    intro n
    induction n using Nat.strongRecOn with
    | ind n ih =>
    intro hn
    obtain ⟨_, hadv, hlt | ⟨m, hm, hdown⟩⟩ := hg.descends_of_chain h rfl hn
    · exact hadv.pos_lt hlt
    · rcases hdown with hlt | ⟨_, hweight⟩
      · exact ih m hlt hm
      · cases hweight
  exact hpos depth (hg.shallow r)

end Grammar

end Descent

/-! ### Repetitions -/

/-- What the repetitions of an expression repeat. -/
def Expr.repeated : Expr R → List (Expr R)
  | .star e => e :: e.repeated
  | .cat e₁ e₂ | .alt e₁ e₂ => e₁.repeated ++ e₂.repeated
  | .group e | .opt e | .ahead e | .notAhead e | .mark e => e.repeated
  | _ => []

theorem Expr.consumes_of_mem_repeated {known : R → Bool} {e₀ : Expr R} {e : Expr R}
    (he : e.progresses known = true) (h : e₀ ∈ e.repeated) : e₀.consumes known = true := by
  induction e with
  | star e ih =>
      obtain ⟨hcons, hprog⟩ := Bool.and_eq_true_iff.mp he
      rcases List.mem_cons.mp h with rfl | h
      · exact hcons
      · exact ih hprog h
  | cat e₁ e₂ ih₁ ih₂ | alt e₁ e₂ ih₁ ih₂ =>
      obtain ⟨hprog₁, hprog₂⟩ := Bool.and_eq_true_iff.mp he
      rcases List.mem_append.mp h with h | h
      · exact ih₁ hprog₁ h
      · exact ih₂ hprog₂ h
  | group e ih | opt e ih | ahead e ih | notAhead e ih | mark e ih => exact ih he h
  | _ => cases h

/-- What the rules of a grammar and its trivia repeat. -/
def Grammar.Repeats (g : Grammar R) (e : Expr R) : Prop :=
  e ∈ g.trivia.repeated ∨ ∃ r, e ∈ (g.rule r).body.repeated

/-- A round of a repetition reads at least one character. -/
theorem Grammar.Progresses.pos_lt_of_round {g : Grammar R} {known : R → Bool} (hg : g.Progresses known)
    {e : Expr R} (he : g.Repeats e) {b : Bool} {c : Context} {s s' : State R}
    (h : g.Reads (.part b e) c s (some s')) : s.pos < s'.pos := by
  have hcons : e.consumes known = true := by
    rcases he with he | ⟨r, he⟩
    · exact Expr.consumes_of_mem_repeated hg.trivia he
    · exact Expr.consumes_of_mem_repeated (hg.body r) he
  exact (h.advances s' rfl).pos_lt (hg.length_lt h hcons s' rfl)

/-! ### Parses -/

/-- Every source is parsed or rejected, once enough rules may be open. -/
theorem Grammar.Grounded.parseWithin_answers [DecidableEq R] {g : Grammar R} {known : R → Bool} {depth : Nat}
    (hg : g.Grounded known depth) (source : List Char) :
    (∃ ms, Eventually fun n => g.parseWithin .abandon n none source = .ok ms) ∨
      Eventually fun n => ∃ pos rs, g.parseWithin .abandon n none source = .error (.mismatch pos rs) := by
  obtain ⟨_ | s, h⟩ := hg.exists_reads (t := .rule g.start) rfl (initialContext none source) (initialState source)
  · right
    refine (hg.answers h rfl rfl (Nat.lt_succ_self _)).imp fun n a => ?_
    have ha := a {}
    unfold parseWithin
    cases hrun : g.invoke .abandon n g.start (initialContext none source) (initialState source) {} with
    | matched s l => rw [hrun] at ha; cases ha
    | failed l => exact ⟨_, _, rfl⟩
    | abandoned why => rw [hrun] at ha; cases ha
  · exact .inl ⟨_, hg.parseWithin_of_reads h⟩

end ConcreteSyntax
