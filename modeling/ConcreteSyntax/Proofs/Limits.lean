import ConcreteSyntax.Proofs.Lossless

/-! # Limits

A limit on units never changes what a parse answers; it only keeps it from answering.

* **Cuts** (`Outcome.IsCut`).  A run with a limit of `n` units is compared with one whose limit is
  wider, or whose refused units fail instead of ending the parse.  Either both end alike, with at
  most `n` units, or the first is abandoned and the second asks for more than `n`.
* **Runs** (`Grammar.invoke_cuts`).  This holds of every expression and every rule, by one induction
  that follows the definition of a run.  Units only add up, so a run that has asked for more than
  `n` stays beyond `n` whatever it does next: a refusal that an option, a repetition or a negative
  lookahead swallows is not forgotten.
* **The end of the input** (`Grammar.Retains.not_exceeded_of_matched`).  The start rule ends with a
  unit that holds no other.  A run that was refused a unit is refused this one too, so it cannot
  match.

Hence a limited parse is the unlimited one or abandoned, and no answer is lost by ending a parse
with its first refused unit (`Grammar.parseWithin_cut`, `Grammar.Retains.parseWithin_fail`). -/

namespace ConcreteSyntax

variable {R : Type}

/-! ### Outcomes -/

/-- The limit, if there is one, admits `n` units. -/
def Admits (limit : Option Nat) (n : Nat) : Prop := ∀ m, limit = some m → n ≤ m

theorem admits_none (n : Nat) : Admits none n := nofun

theorem admits_some {n m : Nat} (h : n ≤ m) : Admits (some m) n := by
  intro m' hm
  cases hm
  exact h

theorem Admits.of_le {limit : Option Nat} {n m : Nat} (h : Admits limit n) (hm : m ≤ n) :
    Admits limit m := fun k hk => Nat.le_trans hm (h k hk)

namespace Outcome

/-- At most `n` units were asked for. -/
def Within (n : Nat) : Outcome R → Prop
  | .matched _ l | .failed l => l.calls ≤ n
  | .abandoned _ => True

/-- More than `n` units were asked for, unless the run was abandoned. -/
def Beyond (n : Nat) : Outcome R → Prop
  | .matched _ l | .failed l => n < l.calls
  | .abandoned _ => True

/-- `o` is `o'` if that took at most `n` units, and abandoned if it took more. -/
def IsCut (n : Nat) (o o' : Outcome R) : Prop :=
  o = o' ∧ o'.Within n ∨ o = .abandoned .callLimit ∧ o'.Beyond n

/-- From the ledger `l` on, `o` is cut from `o'`; if `l` is beyond `n` already, so is `o'`. -/
structure Cuts (n : Nat) (l : Ledger R) (o o' : Outcome R) : Prop where
  isCut : l.calls ≤ n → o.IsCut n o'
  beyond : n < l.calls → o'.Beyond n

variable {n : Nat} {l l' : Ledger R} {o o' : Outcome R}

theorem Cuts.matched {s : State R} (h : l'.calls = l.calls) :
    Cuts n l (.matched s l') (.matched s l') where
  isCut hl := .inl ⟨rfl, show l'.calls ≤ n by omega⟩
  beyond hl := show n < l'.calls by omega

theorem Cuts.failed (h : l'.calls = l.calls) : Cuts n l (.failed l') (.failed l') where
  isCut hl := .inl ⟨rfl, show l'.calls ≤ n by omega⟩
  beyond hl := show n < l'.calls by omega

theorem Cuts.abandoned {why : Abandonment} : Cuts n l (.abandoned why) (.abandoned why) where
  isCut _ := .inl ⟨rfl, trivial⟩
  beyond _ := trivial

theorem Cuts.answered (o : Option (State R)) :
    Cuts n l (o.elim (.failed l) (.matched · l)) (o.elim (.failed l) (.matched · l)) := by
  cases o with
  | none => exact .failed rfl
  | some s => exact .matched rfl

variable {f f' : State R → Ledger R → Outcome R} {g g' : Ledger R → Outcome R}

theorem Beyond.next (h : o.Beyond n) (hf : ∀ s l, n < l.calls → (f s l).Beyond n)
    (hg : ∀ l, n < l.calls → (g l).Beyond n) : (o.next f g).Beyond n := by
  cases o with
  | matched s l => exact hf s l h
  | failed l => exact hg l h
  | abandoned why => exact trivial

theorem Cuts.next (h : Cuts n l o o') (hf : ∀ s l, Cuts n l (f s l) (f' s l))
    (hg : ∀ l, Cuts n l (g l) (g' l)) : Cuts n l (o.next f g) (o'.next f' g') where
  isCut hl := by
    obtain ⟨rfl, hw⟩ | ⟨rfl, hb⟩ := h.isCut hl
    · cases o with
      | matched s l => exact (hf s l).isCut hw
      | failed l => exact (hg l).isCut hw
      | abandoned why => exact .inl ⟨rfl, trivial⟩
    · exact .inr ⟨rfl, hb.next (fun s l => (hf s l).beyond) fun l => (hg l).beyond⟩
  beyond hl := (h.beyond hl).next (fun s l => (hf s l).beyond) fun l => (hg l).beyond

end Outcome

/-! ### Runs -/

/-- With a limit of `n` units, `k` is cut from `k'` with another limit. -/
def Step.Cuts (n : Nat) (limit : Option Nat) (k k' : Step R) : Prop :=
  ∀ (c : Context) s l,
    Outcome.Cuts n l (k { c with limit := some n } s l) (k' { c with limit := limit } s l)

theorem Context.exceeded_iff {c : Context} {l : Ledger R} :
    c.exceeded l = true ↔ ¬Admits c.limit l.calls := by
  unfold Context.exceeded Admits
  cases c.limit with
  | none => simp
  | some m => simp

theorem Context.not_exceeded {c : Context} {l : Ledger R} (h : Admits c.limit l.calls) :
    ¬c.exceeded l = true := fun hc => Context.exceeded_iff.mp hc h

theorem Context.exceeded_of_lt {c : Context} {l : Ledger R} {n : Nat} (hc : c.limit = some n)
    (hl : n < l.calls) : c.exceeded l = true :=
  Context.exceeded_iff.mpr fun h => Nat.not_lt.mpr (h n hc) hl

section Runs

variable {n : Nat} {limit : Option Nat} {refusal : Refusal}

/-- Whether a unit beyond `n` is refused or not, it is counted. -/
theorem Step.beyond_counted {k : Step R} {c : Context} {s : State R} {l : Ledger R}
    (hk : n < l.charge.calls → (k c s l.charge).Beyond n) (hl : n < l.charge.calls) :
    (Step.counted refusal k c s l).Beyond n := by
  by_cases h : c.exceeded l.charge = true
  · simp only [Step.counted, h, ↓reduceIte]
    cases refusal with
    | abandon => exact trivial
    | fail => exact hl
  · rw [Step.counted_of_not_exceeded h]
    exact hk hl

/-- A limit of `n` units refuses a unit no later than a wider limit does. -/
theorem Step.Cuts.counted {k k' : Step R} (hn : Admits limit n)
    (hk : Step.Cuts n limit k k') :
    Step.Cuts n limit (Step.counted .abandon k) (Step.counted refusal k') := by
  intro c s l
  have hbeyond (h : n < l.charge.calls) :
      (Step.counted refusal k' { c with limit := limit } s l).Beyond n :=
    Step.beyond_counted (hk c s l.charge).beyond h
  refine ⟨fun _ => ?_, fun hl => hbeyond (Nat.lt_succ_of_lt hl)⟩
  by_cases hlast : n < l.charge.calls
  · refine .inr ⟨?_, hbeyond hlast⟩
    have hc : Context.exceeded { c with limit := some n } l.charge = true :=
      Context.exceeded_of_lt rfl hlast
    simp only [Step.counted, hc, ↓reduceIte]
  · have hle : l.charge.calls ≤ n := Nat.not_lt.mp hlast
    have hc : ¬Context.exceeded { c with limit := some n } l.charge = true :=
      Context.not_exceeded (admits_some hle)
    have hc' : ¬Context.exceeded { c with limit := limit } l.charge = true :=
      Context.not_exceeded (hn.of_le hle)
    rw [Step.counted_of_not_exceeded hc, Step.counted_of_not_exceeded hc']
    exact (hk c s l.charge).isCut hle

theorem Step.Cuts.repeated {k k' : Step R} (hk : Step.Cuts n limit k k') (c : Context) :
    ∀ rounds s l, Outcome.Cuts n l (Step.repeated k { c with limit := some n } rounds s l)
      (Step.repeated k' { c with limit := limit } rounds s l) := by
  intro rounds
  induction rounds with
  | zero => intro s l; exact .abandoned
  | succ rounds ih =>
      intro s l
      exact (hk c s l).next ih fun l' => .matched rfl

theorem Ledger.calls_track (l : Ledger R) (c : Context) (before : Attempts R) (r : R) (pos : Nat) :
    (l.track c before r pos).calls = l.calls := by
  unfold Ledger.track
  split <;> rfl

theorem Step.Cuts.named {k k' : Step R} (hn : Admits limit n)
    (hk : Step.Cuts n limit k k') (r : R) :
    Step.Cuts n limit (Step.named .abandon r k) (Step.named refusal r k') := by
  refine .counted hn fun c s l => ?_
  refine (hk c { s with nodes := [] } l).next (fun s' l' => .matched ?_) fun l' => .failed ?_
  · split
    · exact Ledger.calls_track ..
    · rfl
  · split
    · rfl
    · exact Ledger.calls_track ..

variable {call call' : R → Step R} {skip skip' : Step R}

theorem Expr.run_cuts (hn : Admits limit n)
    (hcall : ∀ r, Step.Cuts n limit (call r) (call' r)) (hskip : Step.Cuts n limit skip skip')
    (b : Bool) (e : Expr R) :
    Step.Cuts n limit (e.run .abandon call skip b) (e.run refusal call' skip' b) := by
  induction e with
  | word | caseless | char | startOfInput | endOfInput | upTo | peek | pop | drop =>
      intro c s l
      rw [Expr.run_leaf rfl, Expr.run_leaf rfl]
      exact .answered _
  | ref r => exact hcall r
  | cat e₁ e₂ ih₁ ih₂ =>
      intro c s l
      refine (ih₁ c s l).next (fun s₁ l₁ => ?_) fun l₁ => .failed rfl
      cases b with
      | false => exact ih₂ c s₁ l₁
      | true => exact (hskip c s₁ l₁).next (ih₂ c) fun l₂ => .failed rfl
  | group e ih => exact .counted hn ih
  | alt e₁ e₂ ih₁ ih₂ =>
      intro c s l
      exact (ih₁ c s l).next (fun s₁ l₁ => .matched rfl) (ih₂ c s)
  | opt e ih =>
      -- A unit refused inside fails, so the option matches; the ledger still tells.
      refine .counted hn fun c s l => ?_
      exact (ih c s l).next (fun s₁ l₁ => .matched rfl) fun l₁ => .matched rfl
  | star e ih =>
      cases b with
      | false => exact .counted hn fun c => (ih.repeated c) c.rounds
      | true =>
          -- Outside, the first round with all others; inside, the others, and each of them.
          refine .counted hn (.counted hn fun c s l => ?_)
          refine (ih c s l).next (fun s₁ l₁ => ?_) fun l₁ => .matched rfl
          refine Step.Cuts.counted hn (fun c => ?_) c s₁ l₁
          refine Step.Cuts.repeated (.counted hn fun c s l => ?_) c c.rounds
          exact (hskip c s l).next (ih c) fun l₂ => .failed rfl
  | ahead e ih =>
      refine .counted hn fun c s l => ?_
      exact (ih { c with lookahead := c.lookahead.affirm } s l).next (fun s₁ l₁ => .matched rfl)
        fun l₁ => .failed rfl
  | notAhead e ih =>
      refine .counted hn fun c s l => ?_
      exact (ih { c with lookahead := c.lookahead.negate } s l).next (fun s₁ l₁ => .failed rfl)
        fun l₁ => .matched rfl
  | mark e ih =>
      refine .counted hn fun c s l => ?_
      exact (ih c s l).next (fun s₁ l₁ => .matched rfl) fun l₁ => .failed rfl

variable {g : Grammar R}

theorem Grammar.skip_cuts (hn : Admits limit n)
    (hcall : ∀ r, Step.Cuts n limit (call r) (call' r)) :
    Step.Cuts n limit (g.skip .abandon call) (g.skip refusal call') := by
  have hstill : Step.Cuts n limit (fun _ s l => .matched s l : Step R) fun _ s l => .matched s l :=
    fun c s l => .matched rfl
  intro c s l
  show Outcome.Cuts n l (if c.atomicity = .free then _ else _)
    (if c.atomicity = .free then _ else _)
  split
  · exact Expr.run_cuts hn hcall hstill false g.trivia c s l
  · exact .matched rfl

/-- Rules are cut, however many may be open. -/
theorem Grammar.invoke_cuts (hn : Admits limit n) (nesting : Nat) (r : R) :
    Step.Cuts n limit (g.invoke .abandon nesting r) (g.invoke refusal nesting r) := by
  induction nesting generalizing r with
  | zero => intro c s l; exact .abandoned
  | succ nesting ih =>
      have hskip : Step.Cuts n limit (g.skip .abandon (g.invoke .abandon nesting))
          (g.skip refusal (g.invoke refusal nesting)) := g.skip_cuts hn ih
      have hrun := @Expr.run_cuts R n limit refusal _ _ _ _ hn ih hskip
      intro c s l
      rw [Grammar.invoke, Grammar.invoke]
      rcases g.rule r with ⟨kind, e⟩
      cases kind with
      | normal => exact Step.Cuts.named hn (hrun true e) r c s l
      | silent => exact hrun true e c s l
      | atomic =>
          refine Step.Cuts.named hn (.counted hn fun c s l => ?_) r c s l
          exact hrun false e { c with atomicity := .atomic } s l
      | compound =>
          refine Step.Cuts.counted hn (fun c s l => ?_) c s l
          exact Step.Cuts.named hn (hrun false e) r { c with atomicity := .compound } s l

/-! ### What a match says -/

theorem Step.of_counted_matched {k : Step R} {c : Context} {s s' : State R} {l l' : Ledger R}
    (h : Step.counted refusal k c s l = .matched s' l') :
    ¬c.exceeded l.charge = true ∧ k c s l.charge = .matched s' l' := by
  by_cases hc : c.exceeded l.charge = true
  · simp only [Step.counted, hc, ↓reduceIte] at h
    cases refusal with
    | abandon => cases h
    | fail => cases h
  · rw [Step.counted_of_not_exceeded hc] at h
    exact ⟨hc, h⟩

theorem Outcome.of_next_matched {f : State R → Ledger R → Outcome R} {o : Outcome R} {s : State R}
    {l : Ledger R} (h : o.next f .failed = .matched s l) :
    ∃ s₁ l₁, o = .matched s₁ l₁ ∧ f s₁ l₁ = .matched s l := by
  cases o with
  | matched s₁ l₁ => exact ⟨s₁, l₁, rfl, h⟩
  | failed l₁ => cases h
  | abandoned why => cases h

theorem Step.of_named_matched {r : R} {k : Step R} {c : Context} {s s' : State R} {l l' : Ledger R}
    (h : Step.named refusal r k c s l = .matched s' l') :
    ¬c.exceeded l.charge = true ∧
      ∃ s₁ l₁, k c { s with nodes := [] } l.charge = .matched s₁ l₁ ∧ l'.calls = l₁.calls := by
  obtain ⟨hc, h⟩ := Step.of_counted_matched h
  refine ⟨hc, ?_⟩
  cases hk : k c { s with nodes := [] } l.charge with
  | matched s₁ l₁ =>
      simp only [hk] at h
      cases h
      refine ⟨s₁, l₁, rfl, ?_⟩
      split
      · exact Ledger.calls_track ..
      · rfl
  | failed l₁ => simp only [hk] at h; cases h
  | abandoned why => simp only [hk] at h; cases h

theorem Context.exceeded_congr {c : Context} {l l' : Ledger R} (h : l'.calls = l.calls) :
    c.exceeded l' = c.exceeded l := by
  unfold Context.exceeded
  rw [h]

variable [DecidableEq R] {kept : R → Bool} {last : R}

/-- An expression whose last unit was not refused was refused no unit. -/
theorem Expr.not_exceeded_of_endsWith {b : Bool} {e : Expr R}
    (he : e.endsWith kept last = true)
    (hlast : ∀ c s l s' l', call last c s l = .matched s' l' → ¬c.exceeded l' = true) :
    ∀ c s l s' l', e.run refusal call skip b c s l = .matched s' l' → ¬c.exceeded l' = true := by
  induction e with
  | ref r =>
      obtain rfl : r = last := of_decide_eq_true he
      exact hlast
  | group e ih =>
      intro c s l s' l' h
      exact ih he c s l.charge s' l' (Step.of_counted_matched h).2
  | cat e₁ e₂ ih₁ ih₂ =>
      intro c s l s' l' h
      have he₂ : e₂.endsWith kept last = true := (Bool.and_eq_true_iff.mp he).2
      obtain ⟨s₁, l₁, h₁, h⟩ := Outcome.of_next_matched h
      cases b with
      | false => exact ih₂ he₂ c s₁ l₁ s' l' h
      | true =>
          obtain ⟨s₂, l₂, h₂, h⟩ := Outcome.of_next_matched h
          exact ih₂ he₂ c s₂ l₂ s' l' h
  | _ => cases he

variable {v : Vocabulary R} {nesting : Nat} {c : Context} {s s' : State R} {l l' : Ledger R}

/-- The end of the input is a unit that holds no other. -/
theorem Grammar.Retains.not_exceeded_of_last (hg : g.Retains v kept last)
    (h : g.invoke refusal nesting last c s l = .matched s' l') : ¬c.exceeded l' = true := by
  cases nesting with
  | zero => cases h
  | succ nesting =>
      rw [Grammar.invoke, hg.last_rule] at h
      obtain ⟨hc, s₁, l₁, h₁, hl⟩ := Step.of_named_matched h
      rw [Expr.run] at h₁
      split at h₁
      · cases h₁
        rwa [Context.exceeded_congr hl]
      · cases h₁

/-- A run of the start rule that was refused a unit does not match. -/
theorem Grammar.Retains.not_exceeded_of_matched (hg : g.Retains v kept last)
    (h : g.invoke refusal nesting g.start c s l = .matched s' l') : ¬c.exceeded l' = true := by
  cases nesting with
  | zero => cases h
  | succ nesting =>
      have hkind := hg.start_kind
      have hbody := hg.start_body
      rw [Grammar.invoke] at h
      rcases hrule : g.rule g.start with ⟨kind, e⟩
      rw [hrule] at h hkind hbody
      obtain rfl : kind = .normal := hkind
      obtain ⟨hc, s₁, l₁, h₁, hl⟩ := Step.of_named_matched h
      rw [Context.exceeded_congr hl]
      exact Expr.not_exceeded_of_endsWith hbody (fun _ _ _ _ _ => hg.not_exceeded_of_last)
        c _ _ s₁ l₁ h₁

end Runs

/-! ### Parses -/

namespace Grammar

/-- How the start rule ends on a source. -/
def outcome (g : Grammar R) (refusal : Refusal) (nesting : Nat) (limit : Option Nat)
    (source : List Char) : Outcome R :=
  g.invoke refusal nesting g.start (initialContext limit source) (initialState source) {}

variable {g : Grammar R} {refusal : Refusal} {nesting n : Nat} {limit : Option Nat}
  {source : List Char}

theorem outcome_isCut (hn : Admits limit n) :
    (g.outcome .abandon nesting (some n) source).IsCut n
      (g.outcome refusal nesting limit source) :=
  (invoke_cuts hn nesting g.start (initialContext limit source) (initialState source) {}).isCut
    (Nat.zero_le n)

variable [DecidableEq R]

theorem parseWithin_of_failed {l : Ledger R}
    (h : g.outcome refusal nesting limit source = .failed l) (hl : Admits limit l.calls) :
    g.parseWithin refusal nesting limit source =
      .error (.mismatch l.attempts.pos (g.expected l.attempts)) := by
  have hc : ¬(initialContext limit source).exceeded l = true := Context.not_exceeded hl
  unfold outcome at h
  unfold parseWithin
  rw [h]
  exact if_neg hc

theorem parseWithin_of_matched {s : State R} {l : Ledger R}
    (h : g.outcome refusal nesting limit source = .matched s l) :
    g.parseWithin refusal nesting limit source = .ok s.nodes.reverse := by
  unfold outcome at h
  unfold parseWithin
  rw [h]

theorem parseWithin_of_abandoned {why : Abandonment}
    (h : g.outcome refusal nesting limit source = .abandoned why) :
    g.parseWithin refusal nesting limit source = .error (.abandoned why) := by
  unfold outcome at h
  unfold parseWithin
  rw [h]

/-- A parse with a limit of `n` units ends as one with a wider limit does, or is abandoned where the
other asks for more than `n`. -/
theorem parseWithin_cut (g : Grammar R) (refusal : Refusal) (nesting : Nat) {limit : Option Nat}
    (source : List Char) (hn : Admits limit n) :
    g.parseWithin .abandon nesting (some n) source = g.parseWithin refusal nesting limit source ∨
      g.parseWithin .abandon nesting (some n) source = .error (.abandoned .callLimit) ∧
        (g.outcome refusal nesting limit source).Beyond n := by
  have hcut : (g.outcome .abandon nesting (some n) source).IsCut n
      (g.outcome refusal nesting limit source) := outcome_isCut hn
  obtain ⟨heq, hw⟩ | ⟨heq, hb⟩ := hcut
  · refine .inl ?_
    cases ho : g.outcome refusal nesting limit source with
    | matched s l =>
        rw [ho] at heq
        rw [parseWithin_of_matched heq, parseWithin_of_matched ho]
    | failed l =>
        rw [ho] at heq hw
        have hl : l.calls ≤ n := hw
        rw [parseWithin_of_failed heq (admits_some hl), parseWithin_of_failed ho (hn.of_le hl)]
    | abandoned why =>
        rw [ho] at heq
        rw [parseWithin_of_abandoned heq, parseWithin_of_abandoned ho]
  · exact .inr ⟨parseWithin_of_abandoned heq, hb⟩

/-- What is answered without a limit is answered with one that is wide enough. -/
theorem exists_parseWithin_eq
    (h : ∀ why, g.parseWithin .abandon nesting none source ≠ .error (.abandoned why)) :
    ∃ m, ∀ n, m ≤ n → g.parseWithin .abandon nesting (some n) source =
      g.parseWithin .abandon nesting none source := by
  have hcut (n : Nat) (hn : ¬(g.outcome .abandon nesting none source).Beyond n) :
      g.parseWithin .abandon nesting (some n) source = g.parseWithin .abandon nesting none source :=
    (g.parseWithin_cut .abandon nesting source (admits_none n)).resolve_right fun hb => hn hb.2
  cases ho : g.outcome .abandon nesting none source with
  | matched s l =>
      rw [ho] at hcut
      exact ⟨l.calls, fun n hn => hcut n (Nat.not_lt.mpr hn)⟩
  | failed l =>
      rw [ho] at hcut
      exact ⟨l.calls, fun n hn => hcut n (Nat.not_lt.mpr hn)⟩
  | abandoned why => exact absurd (parseWithin_of_abandoned ho) (h why)

/-- Where refused units only fail, a parse ends as where the first one ends it: it is abandoned, or
the answer is the same. -/
theorem Retains.parseWithin_fail {v : Vocabulary R} {kept : R → Bool} {last : R}
    (hg : g.Retains v kept last) (nesting n : Nat) (source : List Char) :
    g.parseWithin .fail nesting (some n) source = g.parseWithin .abandon nesting (some n) source ∨
      g.parseWithin .abandon nesting (some n) source = .error (.abandoned .callLimit) ∧
        ∃ why, g.parseWithin .fail nesting (some n) source = .error (.abandoned why) := by
  obtain heq | ⟨ha, hb⟩ := g.parseWithin_cut .fail nesting source (admits_some (Nat.le_refl n))
  · exact .inl heq.symm
  · cases ho : g.outcome .fail nesting (some n) source with
    | matched s l =>
        rw [ho] at hb
        exact absurd (Context.exceeded_of_lt rfl hb) (hg.not_exceeded_of_matched ho)
    | failed l =>
        rw [ho] at hb
        have hc : (initialContext (some n) source).exceeded l = true :=
          Context.exceeded_of_lt rfl hb
        refine .inl ?_
        unfold outcome at ho
        rw [ha, parseWithin, ho]
        exact if_pos hc
    | abandoned why => exact .inr ⟨ha, why, parseWithin_of_abandoned ho⟩

end Grammar

namespace Language

theorem parseTree_of_abandoned {l : Language} (origin : String) {source : String}
    {limit : Option Nat} {why : Abandonment}
    (h : l.grammar.parse limit source.toList = .error (.abandoned why)) :
    l.parseTree origin source limit = .error (.exhausted .parsing why.reason) := by
  simp only [parseTree, h]

/-- A limit withholds an answer and never changes it.  With a limit of `k` units a source gives what
it gives without a limit, or the parse ends as exhausted; any answer, tree or mismatch, is also that
of every wider limit; and what is answered without a limit is answered with all limits from some
number of units on.

The last part is about a parse that goes on after a refused unit, as after any failure, and is
abandoned only if it fails in the end: options, repetitions and negative lookaheads may swallow the
refusal, but the parse still ends as above. -/
theorem parseTree_limit (l : Language) (origin source : String) {k k' : Nat} (hk : k ≤ k') :
    (l.parseTree origin source (some k) = l.parseTree origin source none ∨
      l.parseTree origin source (some k) =
        .error (.exhausted .parsing Abandonment.callLimit.reason)) ∧
    (l.parseTree origin source (some k) ≠
        .error (.exhausted .parsing Abandonment.callLimit.reason) →
      l.parseTree origin source (some k') = l.parseTree origin source (some k)) ∧
    ((∀ reason, l.parseTree origin source none ≠ .error (.exhausted .parsing reason)) →
      ∃ m, ∀ n, m ≤ n →
        l.parseTree origin source (some n) = l.parseTree origin source none) ∧
    (l.grammar.parseWithin .fail nestingLimit (some k) source.toList =
        l.grammar.parse (some k) source.toList ∨
      l.grammar.parse (some k) source.toList = .error (.abandoned .callLimit) ∧
        ∃ why, l.grammar.parseWithin .fail nestingLimit (some k) source.toList =
          .error (.abandoned why)) := by
  obtain ⟨kept, hg⟩ := l.exists_retains
  have hcut (limit : Option Nat) (hn : Admits limit k) :
      l.parseTree origin source (some k) = l.parseTree origin source limit ∨
        l.parseTree origin source (some k) =
          .error (.exhausted .parsing Abandonment.callLimit.reason) := by
    obtain heq | ⟨ha, _⟩ := l.grammar.parseWithin_cut .abandon nestingLimit source.toList hn
    · exact .inl (by simp only [parseTree, Grammar.parse, heq])
    · exact .inr (parseTree_of_abandoned origin ha)
  refine ⟨hcut none (admits_none k), fun hne => ?_, fun hne => ?_,
    hg.parseWithin_fail nestingLimit k source.toList⟩
  · exact ((hcut (some k') (admits_some hk)).resolve_right hne).symm
  · obtain ⟨m, hm⟩ := l.grammar.exists_parseWithin_eq fun why hwhy =>
      hne why.reason (parseTree_of_abandoned origin hwhy)
    exact ⟨m, fun n hn => by simp only [parseTree, Grammar.parse, hm n hn]⟩

/-- The tree of `[]` takes 56 units. -/
theorem parseTree_limit_array :
    json.parseTree "a.json" "[]" (some 55) =
        .error (.exhausted .parsing Abandonment.callLimit.reason) ∧
      ∃ t, json.parseTree "a.json" "[]" (some 56) = .ok t ∧
        json.parseTree "a.json" "[]" none = .ok t ∧
        json.parseTree "a.json" "[]" (some 200) = .ok t ∧
        ∃ m, ∀ n, m ≤ n → json.parseTree "a.json" "[]" (some n) = .ok t := by
  have hlow : (json.parseTree "a.json" "[]" (some 55)).toOption.isSome = false := by decide +kernel
  have hhigh : (json.parseTree "a.json" "[]" (some 56)).toOption.isSome = true := by decide +kernel
  obtain ⟨heq, hwide, henough, _⟩ :=
    Language.parseTree_limit json "a.json" "[]" (show 56 ≤ 200 by decide)
  cases ht : json.parseTree "a.json" "[]" (some 56) with
  | error f => rw [ht] at hhigh; cases hhigh
  | ok t =>
      rw [ht] at heq hwide
      have hnone : json.parseTree "a.json" "[]" none = .ok t :=
        (heq.resolve_right fun h => by cases h).symm
      rw [hnone] at henough
      have hcut := (Language.parseTree_limit json "a.json" "[]" (Nat.le_refl 55)).1
      refine ⟨hcut.resolve_left ?_, t, rfl, hnone, hwide ?_, henough ?_⟩
      · intro h
        rw [h, hnone] at hlow
        cases hlow
      · intro h
        cases h
      · intro reason h
        cases h

end Language

end ConcreteSyntax
