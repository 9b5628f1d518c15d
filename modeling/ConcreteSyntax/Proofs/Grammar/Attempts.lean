import ConcreteSyntax.Proofs.Grammar.Coverage

/-! # Attempts

What a failed parse says about the furthest position it tried.

* **Tries** (`Grammar.Tries`).  Running a task tries a position if a rule that leaves a node is entered there,
  outside of atomic rules.  Only such rules are kept as attempts.
* **Steady grammars** (`Grammar.Steady`).  Outside of atomic rules nothing is negated.  So an attempt is
  always kept for what failed, never for what matched under a negation.
* **Runs** (`Grammar.Steady.tracks`).  What is kept by each attempt at a tried position is kept by the whole
  run.  Hence the furthest position is one that was tried (`Grammar.Steady.tries_of_mismatch`), and a
  source that is rejected is rejected with something expected (`Grammar.Steady.expected_ne_nil`). -/

namespace ConcreteSyntax

variable {R : Type}

/-! ### Tries -/

/-- Running a task tries a position: a rule that leaves a node is entered there, outside of atomic rules. -/
inductive Grammar.Tries (g : Grammar R) (p : Nat) : Task R → Context → State R → Prop
  | ref {b r c s} : Tries g p (.rule r) c s → Tries g p (.part b (.ref r)) c s
  | cat_left {b e₁ e₂ c s} : Tries g p (.part b e₁) c s → Tries g p (.part b (.cat e₁ e₂)) c s
  | cat_gap {b e₁ e₂ c s s₁} : g.Reads (.part b e₁) c s (some s₁) → Tries g p (.gap b) c s₁ →
      Tries g p (.part b (.cat e₁ e₂)) c s
  | cat_right {b e₁ e₂ c s s₁ s₂} : g.Reads (.part b e₁) c s (some s₁) →
      g.Reads (.gap b) c s₁ (some s₂) → Tries g p (.part b e₂) c s₂ →
      Tries g p (.part b (.cat e₁ e₂)) c s
  | group {b e c s} : Tries g p (.part b e) c s → Tries g p (.part b (.group e)) c s
  | alt_left {b e₁ e₂ c s} : Tries g p (.part b e₁) c s → Tries g p (.part b (.alt e₁ e₂)) c s
  | alt_right {b e₁ e₂ c s} : g.Reads (.part b e₁) c s none → Tries g p (.part b e₂) c s →
      Tries g p (.part b (.alt e₁ e₂)) c s
  | opt {b e c s} : Tries g p (.part b e) c s → Tries g p (.part b (.opt e)) c s
  | star_first {b e c s} : Tries g p (.part b e) c s → Tries g p (.part b (.star e)) c s
  | star_rounds {b e c s s₁} : g.Reads (.part b e) c s (some s₁) → Tries g p (.rounds b e) c s₁ →
      Tries g p (.part b (.star e)) c s
  | round_gap {b e c s} : Tries g p (.gap b) c s → Tries g p (.rounds b e) c s
  | round_part {b e c s s₁} : g.Reads (.gap b) c s (some s₁) → Tries g p (.part b e) c s₁ →
      Tries g p (.rounds b e) c s
  | rounds {b e c s s₁ s₂} : g.Reads (.gap b) c s (some s₁) → g.Reads (.part b e) c s₁ (some s₂) →
      Tries g p (.rounds b e) c s₂ → Tries g p (.rounds b e) c s
  | ahead {b e c s} : Tries g p (.part b e) { c with lookahead := c.lookahead.affirm } s →
      Tries g p (.part b (.ahead e)) c s
  | notAhead {b e c s} : Tries g p (.part b e) { c with lookahead := c.lookahead.negate } s →
      Tries g p (.part b (.notAhead e)) c s
  | mark {b e c s} : Tries g p (.part b e) c s → Tries g p (.part b (.mark e)) c s
  | gap {c s} : c.atomicity = .free → Tries g p (.part false g.trivia) c s → Tries g p (.gap true) c s
  | silent {r e c s} : g.rule r = ⟨.silent, e⟩ → Tries g p (.part true e) c s → Tries g p (.rule r) c s
  | inside {r k e c s} : g.rule r = ⟨k, e⟩ → k ≠ .silent →
      Tries g p (.part k.spaced e) (k.inner c) { s with nodes := [] } → Tries g p (.rule r) c s
  | self {r c s} : (g.rule r).kind ≠ .silent → c.atomicity ≠ .atomic → s.pos = p →
      Tries g p (.rule r) c s

theorem Grammar.Tries.within {g : Grammar R} {p : Nat} {t : Task R} {c : Context} {s : State R}
    (h : g.Tries p t c s) : s.pos ≤ p ∧ p ≤ s.pos + s.rest.length := by
  have hmove : ∀ {t : Task R} {c : Context} {s s' : State R}, g.Reads t c s (some s') →
      s'.pos ≤ p ∧ p ≤ s'.pos + s'.rest.length → s.pos ≤ p ∧ p ≤ s.pos + s.rest.length := by
    intro t c s s' hread hp
    obtain ⟨w, hw, hpos⟩ := hread.advances s' rfl
    rw [hw, List.length_append]
    omega
  induction h with
  | self _ _ hp => omega
  | cat_gap h₁ _ ih => exact hmove h₁ ih
  | cat_right h₁ h₂ _ ih => exact hmove h₁ (hmove h₂ ih)
  | star_rounds h₁ _ ih => exact hmove h₁ ih
  | round_part h₁ _ ih => exact hmove h₁ ih
  | rounds h₁ h₂ _ ih => exact hmove h₁ (hmove h₂ ih)
  | alt_right _ _ ih | gap _ _ ih | silent _ _ ih | inside _ _ _ ih => exact ih
  | _ => assumption

/-- Without compound rules nothing is tried inside of atomic rules. -/
theorem Grammar.Tries.not_atomic {g : Grammar R} {p : Nat} {t : Task R} {c : Context} {s : State R}
    (hg : ∀ r, (g.rule r).kind ≠ .compound) (h : g.Tries p t c s) : c.atomicity ≠ .atomic := by
  induction h with
  | self _ hc _ => exact hc
  | @inside r k e c s hr hk _ ih =>
      cases k with
      | normal => exact ih
      | silent => exact absurd rfl hk
      | atomic => exact absurd rfl ih
      | compound => exact absurd (congrArg Rule.kind hr) (hg r)
  | _ => assumption

/-- All positions that a task tries have a property. -/
def Grammar.TriesOnly (g : Grammar R) (V : Nat → Prop) (c : Context) (s : State R) (t : Task R) : Prop :=
  ∀ p, g.Tries p t c s → V p

namespace Grammar

section TriesOnly

variable {g : Grammar R} {V : Nat → Prop} {b : Bool} {e e₁ e₂ : Expr R} {r : R} {c : Context}
  {s : State R}

theorem triesOnly_ref (h : g.TriesOnly V c s (.rule r)) : g.TriesOnly V c s (.part b (.ref r)) := by
  intro p hp
  cases hp with
  | ref hp => exact h p hp

theorem triesOnly_group (h : g.TriesOnly V c s (.part b e)) : g.TriesOnly V c s (.part b (.group e)) := by
  intro p hp
  cases hp with
  | group hp => exact h p hp

theorem triesOnly_opt (h : g.TriesOnly V c s (.part b e)) : g.TriesOnly V c s (.part b (.opt e)) := by
  intro p hp
  cases hp with
  | opt hp => exact h p hp

theorem triesOnly_cat (h₁ : g.TriesOnly V c s (.part b e₁))
    (hgap : ∀ s₁, g.Reads (.part b e₁) c s (some s₁) → g.TriesOnly V c s₁ (.gap b))
    (h₂ : ∀ s₁ s₂, g.Reads (.part b e₁) c s (some s₁) → g.Reads (.gap b) c s₁ (some s₂) →
      g.TriesOnly V c s₂ (.part b e₂)) : g.TriesOnly V c s (.part b (.cat e₁ e₂)) := by
  intro p hp
  cases hp with
  | cat_left hp => exact h₁ p hp
  | cat_gap hread hp => exact hgap _ hread p hp
  | cat_right hread hread' hp => exact h₂ _ _ hread hread' p hp

theorem triesOnly_star (h : g.TriesOnly V c s (.part b e))
    (hrounds : ∀ s₁, g.Reads (.part b e) c s (some s₁) → g.TriesOnly V c s₁ (.rounds b e)) :
    g.TriesOnly V c s (.part b (.star e)) := by
  intro p hp
  cases hp with
  | star_first hp => exact h p hp
  | star_rounds hread hp => exact hrounds _ hread p hp

theorem triesOnly_choice : ∀ {es : List (Expr R)}, es ≠ [] →
    (∀ e ∈ es, g.TriesOnly V c s (.part b e)) → g.TriesOnly V c s (.part b (.choice es))
  | [e], _, h => h e List.mem_cons_self
  | e₁ :: e₂ :: es, _, h => by
      intro p hp
      cases hp with
      | alt_left hp => exact h e₁ List.mem_cons_self p hp
      | alt_right _ hp =>
          exact triesOnly_choice (List.cons_ne_nil e₂ es) (fun e he => h e (List.mem_cons_of_mem e₁ he)) p hp

theorem triesOnly_normal (hr : g.rule r = ⟨.normal, e⟩) (hs : V s.pos)
    (h : g.TriesOnly V c { s with nodes := [] } (.part true e)) : g.TriesOnly V c s (.rule r) := by
  intro p hp
  cases hp with
  | silent hr' _ =>
      rw [hr] at hr'
      cases hr'
  | inside hr' _ hp =>
      rw [hr] at hr'
      cases hr'
      exact h p hp
  | self _ _ hp => exact hp ▸ hs

theorem triesOnly_atomic (hg : ∀ r, (g.rule r).kind ≠ .compound) (hr : g.rule r = ⟨.atomic, e⟩)
    (hs : V s.pos) : g.TriesOnly V c s (.rule r) := by
  intro p hp
  cases hp with
  | silent hr' _ =>
      rw [hr] at hr'
      cases hr'
  | inside hr' _ hp =>
      rw [hr] at hr'
      cases hr'
      exact absurd rfl (hp.not_atomic hg)
  | self _ _ hp => exact hp ▸ hs

end TriesOnly

end Grammar

/-! ### Outcomes -/

namespace Outcome

/-- What is known of the answer of a run and of the ledger after it. -/
def Ends (F : Option (State R) → Ledger R → Prop) : Outcome R → Prop
  | .matched s l => F (some s) l
  | .failed l => F none l
  | .abandoned _ => True

variable {F G : Option (State R) → Ledger R → Prop} {o : Outcome R}

theorem Ends.imp (h : o.Ends F) (hFG : ∀ x l, F x l → G x l) : o.Ends G := by
  cases o with
  | matched s l => exact hFG _ _ h
  | failed l => exact hFG _ _ h
  | abandoned why => trivial

theorem ends_answered {x : Option (State R)} {l : Ledger R} (h : F x l) :
    (x.elim (.failed l) (.matched · l) : Outcome R).Ends F := by
  cases x with
  | none => exact h
  | some s => exact h

theorem Ends.next {f : State R → Ledger R → Outcome R} {g : Ledger R → Outcome R} (h : o.Ends F)
    (hf : ∀ s l, F (some s) l → (f s l).Ends G) (hg : ∀ l, F none l → (g l).Ends G) :
    (o.next f g).Ends G := by
  cases o with
  | matched s l => exact hf s l h
  | failed l => exact hg l h
  | abandoned why => trivial

end Outcome

theorem Step.ends_counted {F : Option (State R) → Ledger R → Prop} {k : Step R} {c : Context}
    {s : State R} {l : Ledger R} (h : (k c s l.charge).Ends F) :
    (Step.counted .abandon k c s l).Ends F := by
  by_cases hc : c.exceeded l.charge = true
  · simp only [Step.counted, hc, ↓reduceIte]
    trivial
  · rw [Step.counted_of_not_exceeded hc]
    exact h

theorem Step.Follows.ends {g : Grammar R} {k : Step R} {t : Task R} (hk : Step.Follows g k t)
    {F : Option (State R) → Ledger R → Prop} {c : Context} {s : State R} {l : Ledger R}
    (h : (k c s l).Ends F) : (k c s l).Ends fun o l' => g.Reads t c s o ∧ F o l' := by
  cases ho : k c s l with
  | matched s' l' =>
      rw [ho] at h
      exact ⟨hk c s l _ (by rw [ho]; rfl), h⟩
  | failed l' =>
      rw [ho] at h
      exact ⟨hk c s l _ (by rw [ho]; rfl), h⟩
  | abandoned why => trivial

/-! ### Steady grammars -/

/-- Whether an expression refers to known rules only, and negates nothing unless it may. -/
def Expr.over (negates : Bool) (known : R → Bool) : Expr R → Bool
  | .ref r => known r
  | .cat e₁ e₂ | .alt e₁ e₂ => e₁.over negates known && e₂.over negates known
  | .group e | .opt e | .star e | .ahead e | .mark e => e.over negates known
  | .notAhead e => negates && e.over negates known
  | _ => true

/-- Whether a task refers to known rules only, and negates nothing unless it may. -/
def Task.over (negates : Bool) (known : R → Bool) : Task R → Bool
  | .part _ e | .rounds _ e => e.over negates known
  | .rule r => known r
  | .gap _ => true

/-- The rules that are run inside of atomic rules stay there, and those outside negate nothing. -/
structure Grammar.Steady (g : Grammar R) (outer inner : R → Bool) : Prop where
  start : outer g.start = true
  start_kind : (g.rule g.start).kind = .normal
  trivia : g.trivia.over false outer = true
  inside : ∀ r, inner r = true →
    (g.rule r).kind ≠ .compound ∧ (g.rule r).body.over true inner = true
  atomic : ∀ r, outer r = true → (g.rule r).kind = .atomic → (g.rule r).body.over true inner = true
  outside : ∀ r, outer r = true → (g.rule r).kind ≠ .atomic →
    (g.rule r).body.over false outer = true

/-- A task may be run in a context: inside of atomic rules it refers to inner rules only, outside of them
to outer rules, and nothing is negated there. -/
def Task.Fits (outer inner : R → Bool) (t : Task R) (c : Context) : Prop :=
  c.atomicity = .atomic ∧ t.over true inner = true ∨
    c.atomicity ≠ .atomic ∧ c.lookahead ≠ .negative ∧ t.over false outer = true

/-- What is known of the attempts is kept by each attempt that a task makes. -/
def Grammar.Bears (g : Grammar R) (P : Attempts R → Prop) (t : Task R) (c : Context) (s : State R) :
    Prop :=
  ∀ p, g.Tries p t c s → ∀ (a before : Attempts R) (r : R), P a → P before →
    P (a.track before r p false)

/-- What is kept by each attempt is kept by a run. -/
def Step.Tracks (g : Grammar R) (outer inner : R → Bool) (P : Attempts R → Prop) (k : Step R)
    (t : Task R) : Prop :=
  ∀ c s l, t.Fits outer inner c → g.Bears P t c s → P l.attempts →
    (k c s l).Ends fun _ l' => P l'.attempts

section Runs

open Grammar (reads_gap_tight)

variable {g : Grammar R} {outer inner : R → Bool} {P : Attempts R → Prop} {call : R → Step R}
  {skip : Step R} {b : Bool} {c : Context}

/-! What a task may do in a context, its parts may do there too. -/

theorem Task.Fits.gap {t : Task R} (h : t.Fits outer inner c) (b : Bool) :
    (Task.gap b).Fits outer inner c := by
  rcases h with ⟨hc, _⟩ | ⟨hc, hl, _⟩
  · exact .inl ⟨hc, rfl⟩
  · exact .inr ⟨hc, hl, rfl⟩

theorem Task.Fits.both {t : Task R} (h : t.Fits outer inner c) (t₁ t₂ : Task R)
    (hover : ∀ negates known, t.over negates known =
      (t₁.over negates known && t₂.over negates known)) :
    t₁.Fits outer inner c ∧ t₂.Fits outer inner c := by
  rcases h with ⟨hc, h⟩ | ⟨hc, hl, h⟩
  · rw [hover, Bool.and_eq_true] at h
    exact ⟨.inl ⟨hc, h.1⟩, .inl ⟨hc, h.2⟩⟩
  · rw [hover, Bool.and_eq_true] at h
    exact ⟨.inr ⟨hc, hl, h.1⟩, .inr ⟨hc, hl, h.2⟩⟩

theorem Task.Fits.ahead {e : Expr R} (h : (Task.part b (.ahead e)).Fits outer inner c) :
    (Task.part b e).Fits outer inner { c with lookahead := c.lookahead.affirm } := by
  rcases h with ⟨hc, h⟩ | ⟨hc, hl, h⟩
  · exact .inl ⟨hc, h⟩
  · refine .inr ⟨hc, ?_, h⟩
    cases hlook : c.lookahead with
    | negative => exact absurd hlook hl
    | _ => intro h; cases h

theorem Task.Fits.notAhead {e : Expr R} (h : (Task.part b (.notAhead e)).Fits outer inner c) :
    (Task.part b e).Fits outer inner { c with lookahead := c.lookahead.negate } := by
  rcases h with ⟨hc, h⟩ | ⟨_, _, h⟩
  · exact .inl ⟨hc, h⟩
  · cases h

theorem Grammar.Tries.star_of_rounds {p : Nat} {e : Expr R} {s : State R}
    (h : g.Tries p (.rounds false e) c s) : g.Tries p (.part false (.star e)) c s := by
  cases h with
  | round_gap h => cases h
  | round_part hgap h =>
      cases reads_gap_tight.mp hgap
      exact .star_first h
  | rounds hgap hread h =>
      cases reads_gap_tight.mp hgap
      exact .star_rounds hread h

/-- Going round until a round fails keeps what each round keeps. -/
theorem Step.repeated_tracks {k : Step R} {e : Expr R}
    (hk : ∀ s l, g.Bears P (.rounds b e) c s → P l.attempts → (k c s l).Ends fun o l' =>
      P l'.attempts ∧ ∀ s₂, o = some s₂ →
        ∃ s₁, g.Reads (.gap b) c s (some s₁) ∧ g.Reads (.part b e) c s₁ (some s₂)) :
    ∀ n s l, g.Bears P (.rounds b e) c s → P l.attempts →
      (Step.repeated k c n s l).Ends fun _ l' => P l'.attempts := by
  intro n
  induction n with
  | zero => intro s l _ _; trivial
  | succ n ih =>
      intro s l hb hp
      refine (hk s l hb hp).next (fun s₂ l₂ h => ?_) fun l₂ h => h.1
      obtain ⟨hp₂, hread⟩ := h
      obtain ⟨s₁, hgap, hpart⟩ := hread s₂ rfl
      exact ih s₂ l₂ (fun p ht => hb p (.rounds hgap hpart ht)) hp₂

/-- An expression keeps what each attempt keeps, if rules and trivia do. -/
theorem Expr.run_tracks (hcall : ∀ r, Step.Tracks g outer inner P (call r) (.rule r))
    (hfollows : ∀ r, Step.Follows g (call r) (.rule r))
    (hskip : b = true → Step.Tracks g outer inner P skip (.gap true) ∧ Step.Follows g skip (.gap true))
    (e : Expr R) : Step.Tracks g outer inner P (e.run .abandon call skip b) (.part b e) := by
  have hread : ∀ e : Expr R, Step.Follows g (e.run .abandon call skip b) (.part b e) :=
    Expr.run_follows hfollows fun hb => (hskip hb).2
  induction e with
  | word | caseless | char | startOfInput | endOfInput | upTo | peek | pop | drop =>
      intro c s l _ _ hp
      rw [Expr.run_leaf rfl]
      exact Outcome.ends_answered hp
  | ref r => intro c s l ht hb hp; exact hcall r c s l ht (fun p h => hb p (.ref h)) hp
  | cat e₁ e₂ ih₁ ih₂ =>
      intro c s l ht hb hp
      obtain ⟨ht₁, ht₂⟩ := ht.both (.part b e₁) (.part b e₂) fun _ _ => rfl
      have h₁ := (hread e₁).ends (ih₁ c s l ht₁ (fun p h => hb p (.cat_left h)) hp)
      refine h₁.next (fun s₁ l₁ h₁ => ?_) fun l₁ h₁ => h₁.2
      cases b with
      | false => exact ih₂ c s₁ l₁ ht₂ (fun p h => hb p (.cat_right h₁.1 .gap_tight h)) h₁.2
      | true =>
          obtain ⟨htracks, hgap⟩ := hskip rfl
          have h₂ := hgap.ends (htracks c s₁ l₁ (ht.gap true) (fun p h => hb p (.cat_gap h₁.1 h)) h₁.2)
          refine h₂.next (fun s₂ l₂ h₂ => ?_) fun l₂ h₂ => h₂.2
          exact ih₂ c s₂ l₂ ht₂ (fun p h => hb p (.cat_right h₁.1 h₂.1 h)) h₂.2
  | group e ih =>
      intro c s l ht hb hp
      exact Step.ends_counted (ih c s l.charge ht (fun p h => hb p (.group h)) hp)
  | alt e₁ e₂ ih₁ ih₂ =>
      intro c s l ht hb hp
      obtain ⟨ht₁, ht₂⟩ := ht.both (.part b e₁) (.part b e₂) fun _ _ => rfl
      have h₁ := (hread e₁).ends (ih₁ c s l ht₁ (fun p h => hb p (.alt_left h)) hp)
      refine h₁.next (fun s₁ l₁ h₁ => h₁.2) fun l₁ h₁ => ?_
      exact ih₂ c s l₁ ht₂ (fun p h => hb p (.alt_right h₁.1 h)) h₁.2
  | opt e ih =>
      intro c s l ht hb hp
      refine Step.ends_counted ?_
      exact (ih c s l.charge ht (fun p h => hb p (.opt h)) hp).next (fun _ _ h => h) fun _ h => h
  | star e ih =>
      intro c s l ht hb hp
      cases b with
      | false =>
          show (Step.counted .abandon (fun c s l =>
            Step.repeated (e.run .abandon call skip false) c c.rounds s l) c s l).Ends _
          refine Step.ends_counted ?_
          refine Step.repeated_tracks (b := false) (e := e) ?_ c.rounds s l.charge
            (fun p h => hb p h.star_of_rounds) hp
          intro s l hb hp
          have h₁ := (hread e).ends (ih c s l ht (fun p h => hb p (.round_part .gap_tight h)) hp)
          refine h₁.imp fun o l' h₁ => ⟨h₁.2, fun s₂ ho => ⟨s, .gap_tight, ?_⟩⟩
          rw [← ho]
          exact h₁.1
      | true =>
          obtain ⟨htracks, hgap⟩ := hskip rfl
          refine Step.ends_counted (Step.ends_counted ?_)
          have h₁ := (hread e).ends
            (ih c s l.charge.charge ht (fun p h => hb p (.star_first h)) hp)
          refine h₁.next (fun s₁ l₁ h₁ => Step.ends_counted ?_) fun l₁ h₁ => h₁.2
          refine Step.repeated_tracks (b := true) (e := e) ?_ c.rounds s₁ l₁.charge
            (fun p h => hb p (.star_rounds h₁.1 h)) h₁.2
          intro s l hb hp
          refine Step.ends_counted ?_
          have h₂ := hgap.ends (htracks c s l.charge (ht.gap true) (fun p h => hb p (.round_gap h)) hp)
          refine h₂.next (fun s₂ l₂ h₂ => ?_) fun l₂ h₂ => ⟨h₂.2, nofun⟩
          have h₃ := (hread e).ends (ih c s₂ l₂ ht (fun p h => hb p (.round_part h₂.1 h)) h₂.2)
          refine h₃.imp fun o l' h₃ => ⟨h₃.2, fun s₃ ho => ⟨s₂, h₂.1, ?_⟩⟩
          rw [← ho]
          exact h₃.1
  | ahead e ih =>
      intro c s l ht hb hp
      refine Step.ends_counted ?_
      exact (ih _ s l.charge ht.ahead (fun p h => hb p (.ahead h)) hp).next (fun _ _ h => h) fun _ h => h
  | notAhead e ih =>
      intro c s l ht hb hp
      refine Step.ends_counted ?_
      exact (ih _ s l.charge ht.notAhead (fun p h => hb p (.notAhead h)) hp).next (fun _ _ h => h)
        fun _ h => h
  | mark e ih =>
      intro c s l ht hb hp
      refine Step.ends_counted ?_
      exact (ih c s l.charge ht (fun p h => hb p (.mark h)) hp).next (fun _ _ h => h) fun _ h => h

theorem Ledger.attempts_track (l : Ledger R) (c : Context) (before : Attempts R) (r : R) (pos : Nat) :
    (l.track c before r pos).attempts = if c.atomicity = .atomic then l.attempts
      else l.attempts.track before r pos (c.lookahead = .negative) := by
  unfold Ledger.track
  split <;> rfl

theorem Step.named_tracks {k : Step R} {r : R} {s : State R} {l : Ledger R}
    (hc : c.atomicity = .atomic ∨ c.lookahead ≠ .negative)
    (hself : c.atomicity ≠ .atomic → ∀ a before : Attempts R, P a → P before →
      P (a.track before r s.pos false)) (hp : P l.attempts)
    (hk : (k c { s with nodes := [] } l.charge).Ends fun _ l' => P l'.attempts) :
    (Step.named .abandon r k c s l).Ends fun _ l' => P l'.attempts := by
  have htrack : ∀ l' : Ledger R, P l'.attempts → P (l'.track c l.attempts r s.pos).attempts := by
    intro l' hl'
    rw [Ledger.attempts_track]
    split
    next => exact hl'
    next hatomic =>
      have hneg : decide (c.lookahead = .negative) = false := decide_eq_false (hc.resolve_left hatomic)
      rw [hneg]
      exact hself hatomic _ _ hl' hp
  refine Step.ends_counted (hk.next (fun s' l' hl' => ?_) fun l' hl' => ?_)
  · show P (ite _ _ _ : Ledger R).attempts
    split
    · exact htrack l' hl'
    · exact hl'
  · show P (ite _ _ _ : Ledger R).attempts
    split
    · exact hl'
    · exact htrack l' hl'

/-- A rule that fails outside of lookaheads keeps its own attempt. -/
theorem Step.of_named_failed {k : Step R} {r : R} {s : State R} {l l' : Ledger R}
    (hc : c.lookahead = .none) (h : Step.named .abandon r k c s l = .failed l') :
    ∃ l₁, k c { s with nodes := [] } l.charge = .failed l₁ ∧ l' = l₁.track c l.attempts r s.pos := by
  by_cases hlimit : c.exceeded l.charge = true
  · simp only [Step.named, Step.counted, hlimit, ↓reduceIte] at h
    cases h
  · rw [Step.named, Step.counted_of_not_exceeded hlimit] at h
    cases hk : k c { s with nodes := [] } l.charge with
    | matched s₁ l₁ => simp only [hk] at h; cases h
    | failed l₁ =>
        simp only [hk, hc, reduceCtorEq, ↓reduceIte] at h
        cases h
        exact ⟨l₁, rfl, rfl⟩
    | abandoned why => simp only [hk] at h; cases h

theorem Grammar.Steady.skip_tracks (hg : g.Steady outer inner)
    (hcall : ∀ r, Step.Tracks g outer inner P (call r) (.rule r))
    (hfollows : ∀ r, Step.Follows g (call r) (.rule r)) :
    Step.Tracks g outer inner P (g.skip .abandon call) (.gap true) := by
  intro c s l ht hb hp
  unfold Grammar.skip
  split
  next hc =>
    have hfits : (Task.part false g.trivia).Fits outer inner c := by
      rcases ht with ⟨hatomic, _⟩ | ⟨hatomic, hl, _⟩
      · rw [hc] at hatomic
        cases hatomic
      · exact .inr ⟨hatomic, hl, hg.trivia⟩
    refine Expr.run_tracks (b := false) hcall hfollows ?_ g.trivia c s l hfits ?_ hp
    · intro h
      cases h
    · exact fun p h => hb p (.gap hc h)
  next => exact hp

/-- The body of a rule may be run where the rule is. -/
theorem Grammar.Steady.fits_body (hg : g.Steady outer inner) {r : R} {k : RuleKind} {e : Expr R}
    (hr : g.rule r = ⟨k, e⟩) (h : (Task.rule r).Fits outer inner c) :
    (Task.part k.spaced e).Fits outer inner (k.inner c) := by
  rcases h with ⟨hc, h⟩ | ⟨hc, hl, h⟩
  · obtain ⟨hkind, hbody⟩ := hg.inside r h
    rw [hr] at hkind hbody
    cases k with
    | compound => exact absurd rfl hkind
    | atomic => exact .inl ⟨rfl, hbody⟩
    | _ => exact .inl ⟨hc, hbody⟩
  · have hatomic := hg.atomic r h
    have houtside := hg.outside r h
    rw [hr] at hatomic houtside
    cases k with
    | atomic => exact .inl ⟨rfl, hatomic rfl⟩
    | compound => exact .inr ⟨nofun, hl, houtside nofun⟩
    | _ => exact .inr ⟨hc, hl, houtside nofun⟩

theorem Grammar.Steady.body_tracks (hg : g.Steady outer inner) {n : Nat}
    (hcall : ∀ r, Step.Tracks g outer inner P (g.invoke .abandon n r) (.rule r)) (b : Bool) (e : Expr R) :
    Step.Tracks g outer inner P
      (e.run .abandon (g.invoke .abandon n) (g.skip .abandon (g.invoke .abandon n)) b) (.part b e) := by
  have hfollows := g.invoke_follows n
  exact Expr.run_tracks hcall hfollows
    (fun _ => ⟨hg.skip_tracks hcall hfollows, g.skip_follows hfollows⟩) e

/-- **Runs and attempts.**  A rule keeps what each of its attempts keeps, however many rules may be open. -/
theorem Grammar.Steady.tracks (hg : g.Steady outer inner) :
    ∀ n r, Step.Tracks g outer inner P (g.invoke .abandon n r) (.rule r) := by
  intro n
  induction n with
  | zero => intro r c s l _ _ _; trivial
  | succ n ih =>
      have hrun := hg.body_tracks ih
      intro r c s l ht hb hp
      have hlook : c.atomicity = .atomic ∨ c.lookahead ≠ .negative := by
        rcases ht with ⟨hc, _⟩ | ⟨_, hl, _⟩
        · exact .inl hc
        · exact .inr hl
      rw [Grammar.invoke]
      rcases hr : g.rule r with ⟨k, e⟩
      have hbody := hg.fits_body hr ht
      have hself : k ≠ .silent → c.atomicity ≠ .atomic → ∀ a before : Attempts R, P a → P before →
          P (a.track before r s.pos false) := by
        intro hk hc a before
        exact hb s.pos (.self (by rw [hr]; exact hk) hc rfl) a before r
      cases k with
      | normal =>
          refine Step.named_tracks hlook (hself (by decide)) hp ?_
          exact hrun true e c _ _ hbody (fun p h => hb p (.inside hr (by decide) h)) hp
      | silent => exact hrun true e c s l hbody (fun p h => hb p (.silent hr h)) hp
      | atomic =>
          refine Step.named_tracks hlook (hself (by decide)) hp (Step.ends_counted ?_)
          exact hrun false e _ _ _ hbody (fun p h => hb p (.inside hr (by decide) h)) hp
      | compound =>
          -- inside of atomic rules there are no such rules
          have houtside : c.atomicity ≠ .atomic ∧ c.lookahead ≠ .negative := by
            rcases ht with ⟨_, h⟩ | ⟨hc, hl, _⟩
            · exact absurd (congrArg Rule.kind hr) (hg.inside r h).1
            · exact ⟨hc, hl⟩
          refine Step.ends_counted (Step.named_tracks (.inr houtside.2) ?_ hp ?_)
          · exact fun _ => hself (by decide) houtside.1
          · exact hrun false e _ _ _ hbody (fun p h => hb p (.inside hr (by decide) h)) hp

end Runs

/-! ### Rejections -/

namespace Attempts

theorem track_pos (a before : Attempts R) (r : R) (p : Nat) (negative : Bool) :
    a.track before r p negative = a ∨ (a.track before r p negative).pos = p := by
  unfold track
  split
  · exact .inl rfl
  · right
    unfold restrictTo
    split
    next hb => exact hb
    next => rfl

/-- The attempts are at a position that a task tries. -/
def Tried (g : Grammar R) (t : Task R) (c : Context) (s : State R) (a : Attempts R) : Prop :=
  g.Tries a.pos t c s

theorem bears_tried {g : Grammar R} {t : Task R} {c : Context} {s : State R} :
    g.Bears (Tried g t c s) t c s := by
  intro p hp a before r ha _
  unfold Tried at ha ⊢
  rcases track_pos a before r p false with h | h
  · rw [h]
    exact ha
  · rw [h]
    exact hp

/-- Every attempt is for a rule that is expected, and beyond the start there is one. -/
structure Telling (a : Attempts R) : Prop where
  count : a.count = a.expected.length
  beyond : 0 < a.pos → a.expected ≠ []

theorem telling_empty : Telling ({} : Attempts R) where
  count := rfl
  beyond h := absurd h (Nat.lt_irrefl 0)

variable {a before : Attempts R}

theorem Telling.track (ha : a.Telling) (hb : before.Telling) (r : R) (p : Nat) :
    (a.track before r p false).Telling := by
  unfold Attempts.track
  split
  · exact ha
  · refine ⟨?_, fun _ => List.cons_ne_nil _ _⟩
    unfold restrictTo
    split
    · exact congrArg (· + 1) hb.count
    · rfl

theorem Telling.expected_track_ne_nil (ha : a.Telling) (r : R) (p : Nat) :
    (a.track before r p false).expected ≠ [] := by
  unfold Attempts.track
  split
  next h =>
    rcases h with h | h
    · -- an attempt was counted at the position
      intro hnil
      unfold countAt at h
      split at h
      · rw [ha.count, hnil] at h
        cases h
      · cases h
    · exact ha.beyond (Nat.lt_of_le_of_lt (Nat.zero_le p) h)
  next => exact List.cons_ne_nil _ _

end Attempts

theorem Grammar.Steady.fits_start {g : Grammar R} {outer inner : R → Bool} (hg : g.Steady outer inner)
    (limit : Option Nat) (source : List Char) :
    (Task.rule g.start).Fits outer inner (initialContext limit source) :=
  .inr ⟨nofun, nofun, hg.start⟩

section Rejections

variable [DecidableEq R] {g : Grammar R} {outer inner : R → Bool} {limit : Option Nat} {nesting : Nat}
  {source : List Char} {p : Nat} {rs : List R}

theorem Grammar.exists_failed_of_mismatch
    (h : g.parseWithin .abandon nesting limit source = .error (.mismatch p rs)) :
    ∃ l, g.invoke .abandon nesting g.start (initialContext limit source) (initialState source) {} =
        .failed l ∧ p = l.attempts.pos ∧ rs = g.expected l.attempts := by
  unfold Grammar.parseWithin at h
  split at h
  next => cases h
  next l hl =>
    split at h
    · cases h
    · cases h
      exact ⟨l, hl, rfl, rfl⟩
  next => cases h

/-- The position of a rejection was tried. -/
theorem Grammar.Steady.tries_of_mismatch (hg : g.Steady outer inner)
    (h : g.parseWithin .abandon nesting limit source = .error (.mismatch p rs)) :
    g.Tries p (.rule g.start) (initialContext limit source) (initialState source) := by
  obtain ⟨l, hl, rfl, _⟩ := exists_failed_of_mismatch h
  have hstart : (g.rule g.start).kind ≠ .silent := by
    rw [hg.start_kind]
    nofun
  have htracks := hg.tracks nesting g.start _ (initialState source) {} (hg.fits_start limit source)
    Attempts.bears_tried (.self hstart nofun rfl)
  rw [hl] at htracks
  exact htracks

/-- A rejection says what was expected. -/
theorem Grammar.Steady.expected_ne_nil (hg : g.Steady outer inner) (hm : ∀ r, r ∈ g.rules)
    (h : g.parseWithin .abandon nesting limit source = .error (.mismatch p rs)) : rs ≠ [] := by
  obtain ⟨l, hl, _, rfl⟩ := exists_failed_of_mismatch h
  have hne : l.attempts.expected ≠ [] := by
    cases nesting with
    | zero => cases hl
    | succ n =>
        rcases hr : g.rule g.start with ⟨k, e⟩
        obtain rfl : RuleKind.normal = k := hg.start_kind.symm.trans (congrArg Rule.kind hr)
        rw [Grammar.invoke, hr] at hl
        obtain ⟨l', hl', rfl⟩ := Step.of_named_failed rfl hl
        have hbody : (Outcome.failed l').Ends fun _ l => l.attempts.Telling := by
          rw [← hl']
          exact hg.body_tracks (hg.tracks n) true e _ (initialState source) _
            (hg.fits_body hr (hg.fits_start limit source)) (fun p _ a before r ha hb => ha.track hb r p)
            Attempts.telling_empty
        rw [Ledger.attempts_track]
        exact hbody.expected_track_ne_nil _ _
  obtain ⟨r, hr⟩ := List.exists_mem_of_ne_nil _ hne
  refine List.ne_nil_of_mem (a := r) ?_
  rw [Grammar.expected, List.mem_filter]
  exact ⟨hm r, List.contains_iff_mem.mpr hr⟩

end Rejections

end ConcreteSyntax
