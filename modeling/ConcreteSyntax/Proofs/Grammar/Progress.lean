import ConcreteSyntax.Proofs.Grammar.Lexical

/-! # Progress

Readings have no limits, runs have two of their own: how many rules are open at once, and how many rounds a
repetition takes.  In a grammar whose repetitions move on in each round both are harmless.

* **Moving on** (`Expr.consumes`).  Every match of the expression has a character.  This is found from the
  expression and from what is known of rules (`Grammar.Progresses.length_lt`).
* **Answers** (`Grammar.Progresses.answers`).  If every repetition moves on, a run without a limit on units
  ends as the reading does, from some number of open rules on.  A repetition is then never longer than what
  is left of the input. -/

namespace ConcreteSyntax

variable {R : Type}

/-! ### Moving on -/

/-- Whether all repetitions of an expression move on in each round. -/
def Expr.progresses (known : R → Bool) : Expr R → Bool
  | .star e => e.consumes known && e.progresses known
  | .cat e₁ e₂ | .alt e₁ e₂ => e₁.progresses known && e₂.progresses known
  | .group e | .opt e | .ahead e | .notAhead e | .mark e => e.progresses known
  | _ => true

namespace Task

/-- Whether every match of a task has a character. -/
def consumes (known : R → Bool) : Task R → Bool
  | .part _ e => e.consumes known
  | .rule r => known r
  | .gap _ | .rounds .. => false

/-- Whether all repetitions of a task move on in each round. -/
def progresses (known : R → Bool) : Task R → Bool
  | .part _ e => e.progresses known
  | .rounds _ e => e.consumes known && e.progresses known
  | .rule _ | .gap _ => true

end Task

/-- The known rules match at least one character, and all repetitions move on. -/
structure Grammar.Progresses (g : Grammar R) (known : R → Bool) : Prop where
  consumes : ∀ r, known r = true → (g.rule r).body.consumes known = true
  body : ∀ r, (g.rule r).body.progresses known = true
  trivia : g.trivia.progresses known = true

theorem State.Advances.length_le {s s' : State R} (h : s.Advances s') :
    s'.rest.length ≤ s.rest.length := by
  obtain ⟨w, hw, _⟩ := h
  rw [hw, List.length_append]
  omega

theorem State.length_lt_of_rest {s s' : State R} {w : List Char} (hs : s.rest = w ++ s'.rest)
    (hw : w ≠ []) : s'.rest.length < s.rest.length := by
  have hpos : 0 < w.length := List.length_pos_iff.mpr hw
  rw [hs, List.length_append]
  omega

theorem Expr.leaf?_consumes {known : R → Bool} {e : Expr R} {s s' : State R}
    (h : e.leaf? s = some (some s')) (he : e.consumes known = true) :
    s'.rest.length < s.rest.length := by
  cases e with
  | word w =>
      obtain ⟨rest, hr, rfl⟩ := Option.map_eq_some_iff.mp (Option.some.inj h)
      exact State.length_lt_of_rest (stripWord_eq_some hr) (by simpa [Expr.consumes] using he)
  | caseless w =>
      obtain ⟨rest, hr, rfl⟩ := Option.map_eq_some_iff.mp (Option.some.inj h)
      obtain ⟨u, hu, hl⟩ := stripCaseless_eq_some hr
      refine State.length_lt_of_rest hu ?_
      rintro rfl
      have hw : w = [] := List.length_eq_zero_iff.mp hl.symm
      rw [hw] at he
      cases he
  | char k =>
      rw [Expr.leaf?, Option.some.injEq] at h
      split at h
      next => cases h
      next ch rest hr =>
        split at h
        · cases h
          exact State.length_lt_of_rest (w := [ch]) hr (List.cons_ne_nil ch [])
        · cases h
  | startOfInput | endOfInput | upTo | peek | pop | drop => cases he
  | _ => cases h

theorem Grammar.Progresses.length_lt {g : Grammar R} {known : R → Bool} (hg : g.Progresses known)
    {t : Task R} {c : Context} {s : State R} {o : Option (State R)} (h : g.Reads t c s o) :
    t.consumes known = true → ∀ s', o = some s' → s'.rest.length < s.rest.length := by
  induction h with
  | leaf h => intro ht s' ho; exact Expr.leaf?_consumes (ho ▸ h) ht
  | ref _ ih | group _ ih => exact ih
  | cat h₁ h₂ h₃ ih₁ _ ih₃ =>
      intro ht s' ho
      have hle₁ := (h₁.advances _ rfl).length_le
      have hle₂ := (h₂.advances _ rfl).length_le
      have hle₃ := (h₃.advances s' ho).length_le
      rcases Bool.or_eq_true_iff.mp ht with ht | ht
      · have := ih₁ ht _ rfl
        omega
      · have := ih₃ ht s' ho
        omega
  | alt_left _ ih => intro ht; exact ih (Bool.and_eq_true_iff.mp ht).1
  | alt_right _ _ _ ih => intro ht; exact ih (Bool.and_eq_true_iff.mp ht).2
  | silent hr _ ih =>
      intro ht
      have hbody := hg.consumes _ ht
      rw [hr] at hbody
      exact ih hbody
  | @named_some _ _ _ _ _ s₁ hr _ _ ih =>
      intro ht s' ho
      have hbody := hg.consumes _ ht
      rw [hr] at hbody
      have hlt := ih hbody s₁ rfl
      cases ho
      exact hlt
  | cat_left | cat_gap | named_none => intro _ s' ho; cases ho
  | _ => intro ht; cases ht

/-! ### Answers -/

namespace Outcome

variable {o : Outcome R} {f : State R → Ledger R → Outcome R} {g : Ledger R → Outcome R}
  {x : Option (State R)}

theorem answer?_next_some {s : State R} (ho : o.answer? = some (some s))
    (hf : ∀ l, (f s l).answer? = some x) : (o.next f g).answer? = some x := by
  cases o with
  | matched s' l => cases ho; exact hf l
  | failed l => cases ho
  | abandoned why => cases ho

theorem answer?_next_none (ho : o.answer? = some none) (hg : ∀ l, (g l).answer? = some x) :
    (o.next f g).answer? = some x := by
  cases o with
  | matched s l => cases ho
  | failed l => exact hg l
  | abandoned why => cases ho

end Outcome

section Runs

variable {c : Context} {s : State R} {o : Option (State R)}

theorem Step.answer?_counted_of {k : Step R} (hc : c.limit = none)
    (h : ∀ l, (k c s l).answer? = some o) (l : Ledger R) :
    (Step.counted .abandon k c s l).answer? = some o := by
  have hlimit : ¬c.exceeded l.charge = true := by simp [Context.exceeded, hc]
  rw [Step.counted_of_not_exceeded hlimit]
  exact h _

theorem Step.answer?_named_of {k : Step R} {r : R} (hc : c.limit = none)
    (h : ∀ l, (k c { s with nodes := [] } l).answer? = some o) (l : Ledger R) :
    (Step.named .abandon r k c s l).answer? = some (o.map (s.close r c.keepsNodes)) := by
  refine Step.answer?_counted_of hc (fun l => ?_) l
  cases o with
  | some s' => exact Outcome.answer?_next_some (h l) fun l' => rfl
  | none => exact Outcome.answer?_next_none (h l) fun l' => rfl

/-- One round of a repetition after the first. -/
def Expr.round (call : R → Step R) (skip : Step R) (e : Expr R) : Bool → Step R
  | true => Step.counted .abandon fun c s l => (skip c s l).next (e.run .abandon call skip true c) .failed
  | false => e.run .abandon call skip false

theorem Expr.run_star_tight {call : R → Step R} {skip : Step R} {e : Expr R} {l : Ledger R} :
    (Expr.star e).run .abandon call skip false c s l =
      Step.counted .abandon (fun c s l => Step.repeated (e.round call skip false) c c.rounds s l) c s l :=
  rfl

/-- With at most `n` rules open the run of a task ends as given, whatever was spent before; a repetition may
take more rounds than there are characters left. -/
def Grammar.Answers (g : Grammar R) (n : Nat) (c : Context) (s : State R) (o : Option (State R)) :
    Task R → Prop
  | .part b e => ∀ skip, (b = true → skip = g.skip .abandon (g.invoke .abandon n)) →
      ∀ l, (e.run .abandon (g.invoke .abandon n) skip b c s l).answer? = some o
  | .rule r => ∀ l, (g.invoke .abandon n r c s l).answer? = some o
  | .gap b => b = true → ∀ l, (g.skip .abandon (g.invoke .abandon n) c s l).answer? = some o
  | .rounds b e => ∀ skip, (b = true → skip = g.skip .abandon (g.invoke .abandon n)) →
      ∀ k, s.rest.length < k →
      ∀ l, (Step.repeated (e.round (g.invoke .abandon n) skip b) c k s l).answer? = some o

open Grammar (reads_gap_tight)

theorem Grammar.Answers.round {g : Grammar R} {n : Nat} {b : Bool} {e : Expr R} {s₁ : State R} {skip : Step R}
    (a₁ : g.Answers n c s (some s₁) (.gap b)) (hc : c.limit = none) (h₁ : g.Reads (.gap b) c s (some s₁))
    (a₂ : g.Answers n c s₁ o (.part b e)) (hs : b = true → skip = g.skip .abandon (g.invoke .abandon n))
    (l : Ledger R) : (e.round (g.invoke .abandon n) skip b c s l).answer? = some o := by
  cases b with
  | false =>
      cases reads_gap_tight.mp h₁
      exact a₂ skip hs l
  | true =>
      obtain rfl := hs rfl
      rw [Expr.round]
      refine Step.answer?_counted_of hc (fun l => ?_) l
      exact Outcome.answer?_next_some (a₁ rfl l) (a₂ _ hs)

theorem Grammar.Answers.named {g : Grammar R} {n : Nat} {r : R} {k : RuleKind} {e : Expr R}
    (a : g.Answers n (k.inner c) { s with nodes := [] } o (.part k.spaced e)) (hc : c.limit = none)
    (hrule : g.rule r = ⟨k, e⟩) (hk : k ≠ .silent) :
    g.Answers (n + 1) c s (o.map (s.close r (k.keeps c))) (.rule r) := by
  intro l
  rw [Grammar.invoke, hrule]
  cases k with
  | normal => exact Step.answer?_named_of hc (a _ fun _ => rfl) l
  | silent => exact absurd rfl hk
  | atomic =>
      refine Step.answer?_named_of hc (Step.answer?_counted_of hc ?_) l
      exact a _ (fun hb => by cases hb)
  | compound =>
      refine Step.answer?_counted_of hc (fun l => ?_) l
      exact Step.answer?_named_of (c := { c with atomicity := .compound }) hc (a _ (fun hb => by cases hb)) l

/-- From some number of open rules on. -/
def Eventually (P : Nat → Prop) : Prop := ∃ n, ∀ m, n ≤ m → P m

theorem Eventually.imp {P Q : Nat → Prop} (h : Eventually P) (hPQ : ∀ n, P n → Q n) : Eventually Q := by
  obtain ⟨n, hn⟩ := h
  exact ⟨n, fun m hm => hPQ m (hn m hm)⟩

theorem Eventually.and {P Q : Nat → Prop} (hP : Eventually P) (hQ : Eventually Q) :
    Eventually fun n => P n ∧ Q n := by
  obtain ⟨n, hn⟩ := hP
  obtain ⟨n', hn'⟩ := hQ
  refine ⟨max n n', fun m hm => ⟨hn m ?_, hn' m ?_⟩⟩
  · omega
  · omega

/-- One more rule may be open around what needs so many. -/
theorem Eventually.succ {P Q : Nat → Prop} (h : Eventually P) (hPQ : ∀ n, P n → Q (n + 1)) : Eventually Q := by
  obtain ⟨n, hn⟩ := h
  refine ⟨n + 1, fun m hm => ?_⟩
  obtain ⟨m, rfl⟩ : ∃ k, m = k + 1 := ⟨m - 1, by omega⟩
  exact hPQ m (hn m (by omega))

/-- **Readings are answered.**  Without a limit on units, and with more rounds than there are characters, every
task ends as it reads once enough rules may be open. -/
theorem Grammar.Progresses.answers {g : Grammar R} {known : R → Bool} (hg : g.Progresses known) {t : Task R}
    (h : g.Reads t c s o) : t.progresses known = true → c.limit = none → s.rest.length < c.rounds →
      Eventually fun n => g.Answers n c s o t := by
  induction h with
  | leaf h =>
      intro _ _ _
      refine ⟨0, fun n _ skip _ l => ?_⟩
      rw [Expr.run_leaf h, Outcome.answer?_elim]
  | ref _ ih =>
      intro _ hc hr
      exact (ih rfl hc hr).imp fun n h skip _ l => h l
  | @cat b e₁ e₂ c s s₁ s₂ o h₁ h₂ h₃ ih₁ ih₂ ih₃ =>
      intro ht hc hr
      obtain ⟨ht₁, ht₃⟩ := Bool.and_eq_true_iff.mp ht
      have hle₁ := (h₁.advances s₁ rfl).length_le
      have hle₂ := (h₂.advances s₂ rfl).length_le
      refine ((ih₁ ht₁ hc hr).and ((ih₂ rfl hc (by omega)).and (ih₃ ht₃ hc (by omega)))).imp fun n h => ?_
      obtain ⟨a₁, a₂, a₃⟩ := h
      intro skip hs l
      refine Outcome.answer?_next_some (a₁ skip hs l) fun l₁ => ?_
      cases b with
      | false =>
          cases reads_gap_tight.mp h₂
          exact a₃ skip hs l₁
      | true =>
          obtain rfl := hs rfl
          exact Outcome.answer?_next_some (a₂ rfl l₁) (a₃ _ hs)
  | cat_left _ ih =>
      intro ht hc hr
      refine (ih (Bool.and_eq_true_iff.mp ht).1 hc hr).imp fun n a skip hs l => ?_
      exact Outcome.answer?_next_none (a skip hs l) fun _ => rfl
  | @cat_gap b e₁ e₂ c s s₁ h₁ h₂ ih₁ ih₂ =>
      intro ht hc hr
      have hle₁ := (h₁.advances s₁ rfl).length_le
      refine ((ih₁ (Bool.and_eq_true_iff.mp ht).1 hc hr).and (ih₂ rfl hc (by omega))).imp fun n h => ?_
      obtain ⟨a₁, a₂⟩ := h
      intro skip hs l
      refine Outcome.answer?_next_some (a₁ skip hs l) fun l₁ => ?_
      cases b with
      | false => cases reads_gap_tight.mp h₂
      | true =>
          obtain rfl := hs rfl
          exact Outcome.answer?_next_none (a₂ rfl l₁) fun _ => rfl
  | group _ ih =>
      intro ht hc hr
      refine (ih ht hc hr).imp fun n a skip hs l => ?_
      exact Step.answer?_counted_of hc (a skip hs) l
  | alt_left _ ih =>
      intro ht hc hr
      refine (ih (Bool.and_eq_true_iff.mp ht).1 hc hr).imp fun n a skip hs l => ?_
      exact Outcome.answer?_next_some (a skip hs l) fun _ => rfl
  | alt_right _ _ ih₁ ih₂ =>
      intro ht hc hr
      obtain ⟨ht₁, ht₂⟩ := Bool.and_eq_true_iff.mp ht
      refine ((ih₁ ht₁ hc hr).and (ih₂ ht₂ hc hr)).imp fun n h skip hs l => ?_
      exact Outcome.answer?_next_none (h.1 skip hs l) (h.2 skip hs)
  | opt_some _ ih =>
      intro ht hc hr
      refine (ih ht hc hr).imp fun n a skip hs l => Step.answer?_counted_of hc (fun l => ?_) l
      exact Outcome.answer?_next_some (a skip hs l) fun _ => rfl
  | opt_none _ ih =>
      intro ht hc hr
      refine (ih ht hc hr).imp fun n a skip hs l => Step.answer?_counted_of hc (fun l => ?_) l
      exact Outcome.answer?_next_none (a skip hs l) fun _ => rfl
  | @star_some b e c s s₁ o h₁ _ ih₁ ih₂ =>
      intro ht hc hr
      obtain ⟨hconsumes, he⟩ := Bool.and_eq_true_iff.mp ht
      have hlt := hg.length_lt h₁ hconsumes s₁ rfl
      refine ((ih₁ he hc hr).and (ih₂ ht hc (by omega))).imp fun n h skip hs l => ?_
      obtain ⟨a₁, a₂⟩ := h
      cases b with
      | false =>
          -- without gaps the first round is counted with the others
          rw [Expr.run_star_tight]
          refine Step.answer?_counted_of hc (fun l => ?_) l
          obtain ⟨k, hk⟩ : ∃ k, c.rounds = k + 1 := ⟨c.rounds - 1, by omega⟩
          rw [hk, Step.repeated]
          exact Outcome.answer?_next_some (a₁ skip hs l) (a₂ skip hs k (by omega))
      | true =>
          refine Step.answer?_counted_of hc (Step.answer?_counted_of hc fun l => ?_) l
          refine Outcome.answer?_next_some (a₁ skip hs l) (Step.answer?_counted_of hc fun l₁ => ?_)
          exact a₂ skip hs c.rounds (by omega) l₁
  | @star_none b e c s h ih =>
      intro ht hc hr
      refine (ih (Bool.and_eq_true_iff.mp ht).2 hc hr).imp fun n a skip hs l => ?_
      cases b with
      | false =>
          rw [Expr.run_star_tight]
          refine Step.answer?_counted_of hc (fun l => ?_) l
          obtain ⟨k, hk⟩ : ∃ k, c.rounds = k + 1 := ⟨c.rounds - 1, by omega⟩
          rw [hk, Step.repeated]
          exact Outcome.answer?_next_none (a skip hs l) fun _ => rfl
      | true =>
          refine Step.answer?_counted_of hc (Step.answer?_counted_of hc fun l => ?_) l
          exact Outcome.answer?_next_none (a skip hs l) fun _ => rfl
  | @round b e c s s₁ s₂ o h₁ h₂ _ ih₁ ih₂ ih₃ =>
      intro ht hc hr
      obtain ⟨hconsumes, he⟩ := Bool.and_eq_true_iff.mp ht
      have hle := (h₁.advances s₁ rfl).length_le
      have hlt := hg.length_lt h₂ hconsumes s₂ rfl
      refine ((ih₁ rfl hc hr).and ((ih₂ he hc (by omega)).and (ih₃ ht hc (by omega)))).imp fun n h => ?_
      obtain ⟨a₁, a₂, a₃⟩ := h
      intro skip hs k hk l
      -- the round has read a character, so what is left needs one round less
      obtain ⟨k, rfl⟩ : ∃ k', k = k' + 1 := ⟨k - 1, by omega⟩
      rw [Step.repeated]
      exact Outcome.answer?_next_some (a₁.round hc h₁ a₂ hs l) (a₃ skip hs k (by omega))
  | @rounds_end b e c s s₁ h₁ h₂ ih₁ ih₂ =>
      intro ht hc hr
      have hle := (h₁.advances s₁ rfl).length_le
      have he := (Bool.and_eq_true_iff.mp ht).2
      refine ((ih₁ rfl hc hr).and (ih₂ he hc (by omega))).imp fun n h => ?_
      obtain ⟨a₁, a₂⟩ := h
      intro skip hs k hk l
      obtain ⟨k, rfl⟩ : ∃ k', k = k' + 1 := ⟨k - 1, by omega⟩
      rw [Step.repeated]
      exact Outcome.answer?_next_none (a₁.round hc h₁ a₂ hs l) fun _ => rfl
  | @rounds_gap b e c s h ih =>
      intro ht hc hr
      refine (ih rfl hc hr).imp fun n a skip hs k hk l => ?_
      obtain ⟨k, rfl⟩ : ∃ k', k = k' + 1 := ⟨k - 1, by omega⟩
      rw [Step.repeated]
      refine Outcome.answer?_next_none ?_ fun _ => rfl
      cases b with
      | false => cases reads_gap_tight.mp h
      | true =>
          obtain rfl := hs rfl
          rw [Expr.round]
          refine Step.answer?_counted_of hc (fun l => ?_) l
          exact Outcome.answer?_next_none (a rfl l) fun _ => rfl
  | ahead_some _ ih | notAhead_some _ ih | mark_some _ ih =>
      intro ht hc hr
      refine (ih ht hc hr).imp fun n a skip hs l => Step.answer?_counted_of hc (fun l => ?_) l
      exact Outcome.answer?_next_some (a skip hs l) fun _ => rfl
  | ahead_none _ ih | notAhead_none _ ih | mark_none _ ih =>
      intro ht hc hr
      refine (ih ht hc hr).imp fun n a skip hs l => Step.answer?_counted_of hc (fun l => ?_) l
      exact Outcome.answer?_next_none (a skip hs l) fun _ => rfl
  | gap_tight =>
      intro _ _ _
      refine ⟨0, fun n _ hb => ?_⟩
      cases hb
  | gap_closed hatomic =>
      intro _ _ _
      refine ⟨0, fun n _ _ l => ?_⟩
      rw [Grammar.skip, if_neg hatomic]
      rfl
  | gap_free hfree _ ih =>
      intro _ hc hr
      refine (ih hg.trivia hc hr).imp fun n a _ l => ?_
      rw [Grammar.skip, if_pos hfree]
      exact a _ (fun hb => by cases hb) l
  | @silent r e c s o hrule _ ih =>
      intro _ hc hr
      have he := hg.body r
      rw [hrule] at he
      refine (ih he hc hr).succ fun n a l => ?_
      rw [Grammar.invoke, hrule]
      exact a _ (fun _ => rfl) l
  | @named_some r k e c s s' hrule hk _ ih | @named_none r k e c s hrule hk _ ih =>
      intro _ hc hr
      have he := hg.body r
      rw [hrule] at he
      have hlimit : (k.inner c).limit = none := by cases k <;> exact hc
      have hrounds : (k.inner c).rounds = c.rounds := by cases k <;> rfl
      refine (ih he hlimit (by rw [hrounds]; exact hr)).succ fun n a => ?_
      exact a.named hc hrule hk

end Runs

/-- A source that the start rule reads is parsed, once enough rules may be open. -/
theorem Grammar.Progresses.parseWithin_of_reads [DecidableEq R] {g : Grammar R} {known : R → Bool}
    (hg : g.Progresses known) {source : List Char} {s : State R}
    (h : g.Reads (.rule g.start) (initialContext none source) (initialState source) (some s)) :
    Eventually fun n => g.parseWithin .abandon n none source = .ok s.nodes.reverse := by
  refine (hg.answers h rfl rfl (Nat.lt_succ_self _)).imp fun n a => ?_
  have ha := a {}
  unfold parseWithin
  cases hrun : g.invoke .abandon n g.start (initialContext none source) (initialState source) {} with
  | matched s' l =>
      rw [hrun] at ha
      cases ha
      rfl
  | failed l => rw [hrun] at ha; cases ha
  | abandoned why => rw [hrun] at ha; cases ha

end ConcreteSyntax
