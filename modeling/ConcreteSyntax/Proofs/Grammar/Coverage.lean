import ConcreteSyntax.Proofs.Grammar.Reading
import ConcreteSyntax.Vocabulary

/-! # What the terminals of a parse cover

A reading moves forward through the input (`Grammar.Reads.advances`).  Where characters are read by
terminals only, the terminals it leaves cover what it moved over, one after another, with nothing
between and nothing twice.

* **Spans** (`Match.spans`).  The terminals of a match with the part of the source each of them covers;
  what was matched inside a terminal does not count.
* **Tilings** (`Tiles`).  Spans that follow each other without gap or overlap.
* **Delegation** (`Expr.delegates`).  An expression that reads no character itself, outside lookaheads:
  it only refers to rules of a given set.  `Grammar.Retains` says of a whole grammar that every rule of
  such a set is a terminal or delegates to the set, and that the start rule ends with the end of the
  input, which no other rule of the set keeps.

The terminals of a parse with such a grammar tile the source, and the end of the input comes last
(`Grammar.Retains.tiles_parse`). -/

namespace ConcreteSyntax

variable {R : Type}

/-! ### Moving forward -/

/-- `s'` stands behind `s` in the same input. -/
def State.Advances (s s' : State R) : Prop :=
  ∃ w, s.rest = w ++ s'.rest ∧ s'.pos = s.pos + w.length

theorem State.Advances.refl (s : State R) : s.Advances s := ⟨[], rfl, rfl⟩

theorem State.Advances.trans {s₁ s₂ s₃ : State R} (h : s₁.Advances s₂) (h' : s₂.Advances s₃) :
    s₁.Advances s₃ := by
  obtain ⟨w, hr, hp⟩ := h
  obtain ⟨w', hr', hp'⟩ := h'
  refine ⟨w ++ w', by rw [hr, hr', List.append_assoc], ?_⟩
  rw [hp', hp, List.length_append, Nat.add_assoc]

theorem State.Advances.of_eq {s s' t t' : State R} (h : s.Advances s') (hr : t.rest = s.rest)
    (hp : t.pos = s.pos) (hr' : t'.rest = s'.rest) (hp' : t'.pos = s'.pos) : t.Advances t' := by
  obtain ⟨w, h₁, h₂⟩ := h
  exact ⟨w, by rw [hr, hr', h₁], by rw [hp, hp', h₂]⟩

theorem State.Advances.pos_le {s s' : State R} (h : s.Advances s') : s.pos ≤ s'.pos := by
  obtain ⟨w, _, hp⟩ := h
  omega

theorem stripWord_eq_some {w cs rest : List Char} (h : stripWord w cs = some rest) :
    cs = w ++ rest := by
  induction w generalizing cs with
  | nil => cases h; rfl
  | cons a w ih =>
      cases cs with
      | nil => cases h
      | cons ch cs =>
          rw [stripWord] at h
          split at h
          next ha => rw [ha, ih h]; rfl
          next => cases h

theorem stripCaseless_eq_some {w cs rest : List Char} (h : stripCaseless w cs = some rest) :
    ∃ u, cs = u ++ rest ∧ u.length = w.length := by
  induction w generalizing cs with
  | nil => cases h; exact ⟨[], rfl, rfl⟩
  | cons a w ih =>
      cases cs with
      | nil => cases h
      | cons ch cs =>
          rw [stripCaseless] at h
          split at h
          next ha =>
            obtain ⟨u, hu, hl⟩ := ih h
            exact ⟨ch :: u, by rw [hu]; rfl, by simp [hl]⟩
          next => cases h

theorem skipUpTo_spec (stops : List (List Char)) (cs : List Char) (n : Nat) :
    ∃ u, cs = u ++ (skipUpTo stops cs n).1 ∧ (skipUpTo stops cs n).2 = n + u.length := by
  induction cs generalizing n with
  | nil => exact ⟨[], rfl, rfl⟩
  | cons ch cs ih =>
      rw [skipUpTo]
      split
      · exact ⟨[], rfl, rfl⟩
      · obtain ⟨u, hu, hn⟩ := ih (n + 1)
        refine ⟨ch :: u, by rw [List.cons_append, ← hu], ?_⟩
        rw [hn, List.length_cons]
        omega

theorem State.strip?_advances {s s' : State R} {w : List Char} (h : s.strip? w = some s') :
    s.Advances s' := by
  unfold State.strip? at h
  obtain ⟨rest, hr, rfl⟩ := Option.map_eq_some_iff.mp h
  exact ⟨w, stripWord_eq_some hr, rfl⟩

theorem Expr.leaf?_advances {e : Expr R} {s s' : State R} (h : e.leaf? s = some (some s')) :
    s.Advances s' := by
  cases e with
  | word w => exact State.strip?_advances (Option.some.inj h)
  | caseless w =>
      obtain ⟨rest, hr, rfl⟩ := Option.map_eq_some_iff.mp (Option.some.inj h)
      obtain ⟨u, hu, hl⟩ := stripCaseless_eq_some hr
      exact ⟨u, hu, by rw [hl]; rfl⟩
  | char k =>
      rw [Expr.leaf?, Option.some.injEq] at h
      split at h
      next => cases h
      next ch rest hr =>
        split at h
        · cases h; exact ⟨[ch], hr, rfl⟩
        · cases h
  | startOfInput | endOfInput =>
      rw [Expr.leaf?, Option.some.injEq] at h
      split at h
      · cases h; exact .refl s
      · cases h
  | upTo stops =>
      cases h
      obtain ⟨u, hu, hn⟩ := skipUpTo_spec stops s.rest 0
      exact ⟨u, hu, by rw [State.advance, hn, Nat.zero_add]⟩
  | peek =>
      rw [Expr.leaf?, Option.some.injEq] at h
      split at h
      · cases h
      · exact State.strip?_advances h
  | pop =>
      rw [Expr.leaf?, Option.some.injEq] at h
      split at h
      · cases h
      · obtain ⟨s₁, hs, rfl⟩ := Option.map_eq_some_iff.mp h
        exact (State.strip?_advances hs).of_eq rfl rfl rfl rfl
  | drop =>
      rw [Expr.leaf?, Option.some.injEq] at h
      split at h
      · cases h
      · cases h; exact .refl s
  | _ => cases h

theorem Grammar.Reads.advances {g : Grammar R} {t : Task R} {c : Context} {s : State R}
    {o : Option (State R)} (h : g.Reads t c s o) : ∀ s', o = some s' → s.Advances s' := by
  induction h with
  | leaf h => intro s' ho; exact Expr.leaf?_advances (ho ▸ h)
  | ref _ ih | group _ ih | gap_free _ _ ih | silent _ _ ih => exact ih
  | cat _ _ _ ih₁ ih₂ ih₃ | round _ _ _ ih₁ ih₂ ih₃ =>
      intro s' ho
      exact (ih₁ _ rfl).trans ((ih₂ _ rfl).trans (ih₃ s' ho))
  | alt_left _ ih | opt_some _ ih => intro s' ho; exact ih s' ho
  | alt_right _ _ _ ih => exact ih
  | star_some _ _ ih₁ ih₂ => intro s' ho; exact (ih₁ _ rfl).trans (ih₂ s' ho)
  | mark_some _ ih => intro s' ho; cases ho; exact (ih _ rfl).of_eq rfl rfl rfl rfl
  | named_some _ _ _ ih => intro s' ho; cases ho; exact (ih _ rfl).of_eq rfl rfl rfl rfl
  | cat_left | cat_gap | ahead_none | notAhead_some | mark_none | named_none => nofun
  | _ => intro s' ho; cases ho; exact .refl _

/-! ### Spans and tilings -/

/-- A terminal and the part of a source it covers, by character offsets. -/
structure Span (R : Type) where
  kind : R
  start : Nat
  stop : Nat

mutual

/-- The terminals of a match, in the order of the source. -/
def Match.spans (v : Vocabulary R) : Match R → List (Span R)
  | .node r start stop children =>
    if v.isTerminal r then [⟨r, start, stop⟩] else Match.spansAll v children

def Match.spansAll (v : Vocabulary R) : List (Match R) → List (Span R)
  | [] => []
  | m :: ms => m.spans v ++ Match.spansAll v ms

end

theorem Match.spansAll_append (v : Vocabulary R) (ms ms' : List (Match R)) :
    Match.spansAll v (ms ++ ms') = Match.spansAll v ms ++ Match.spansAll v ms' := by
  induction ms with
  | nil => rfl
  | cons m ms ih => rw [List.cons_append, Match.spansAll, ih, Match.spansAll, List.append_assoc]

/-- The spans follow each other from `lo` to `hi`, without gap or overlap. -/
def Tiles : Nat → List (Span R) → Nat → Prop
  | lo, [], hi => lo = hi
  | lo, x :: xs, hi => x.start = lo ∧ lo ≤ x.stop ∧ Tiles x.stop xs hi

theorem Tiles.le {lo hi : Nat} {xs : List (Span R)} (h : Tiles lo xs hi) : lo ≤ hi := by
  induction xs generalizing lo with
  | nil => exact Nat.le_of_eq h
  | cons x xs ih => exact Nat.le_trans h.2.1 (ih h.2.2)

theorem tiles_append {lo hi : Nat} {xs ys : List (Span R)} :
    Tiles lo (xs ++ ys) hi ↔ ∃ mid, Tiles lo xs mid ∧ Tiles mid ys hi := by
  induction xs generalizing lo with
  | nil =>
      constructor
      · intro h; exact ⟨lo, rfl, h⟩
      · rintro ⟨mid, rfl, h⟩; exact h
  | cons x xs ih =>
      constructor
      · rintro ⟨hs, hle, h⟩
        obtain ⟨mid, h, h'⟩ := ih.mp h
        exact ⟨mid, ⟨hs, hle, h⟩, h'⟩
      · rintro ⟨mid, ⟨hs, hle, h⟩, h'⟩
        exact ⟨hs, hle, ih.mpr ⟨mid, h, h'⟩⟩

/-! ### Delegation -/

/-- Whether an expression reads characters only through rules of a set, lookaheads left aside. -/
def Expr.delegates (kept : R → Bool) : Expr R → Bool
  | .word w | .caseless w => w.isEmpty
  | .char _ | .upTo _ | .peek | .pop => false
  | .startOfInput | .endOfInput | .drop | .ahead _ | .notAhead _ => true
  | .ref r => kept r
  | .cat e₁ e₂ | .alt e₁ e₂ => e₁.delegates kept && e₂.delegates kept
  | .group e | .opt e | .star e | .mark e => e.delegates kept

/-- Whether an expression delegates to a set and then ends with one more rule. -/
def Expr.endsWith [DecidableEq R] (kept : R → Bool) (last : R) : Expr R → Bool
  | .ref r => r = last
  | .cat e₁ e₂ => e₁.delegates kept && e₂.endsWith kept last
  | .group e => e.endsWith kept last
  | _ => false

/-- Whether a rule may belong to a set of rules that cover what they read. -/
def Rule.covers (rule : Rule R) (terminal : Bool) (kept : R → Bool) : Bool :=
  match rule.kind with
  | .silent => rule.body.delegates kept
  | .normal | .compound => rule.body.delegates kept || terminal
  | .atomic => terminal

/-- Every character is read by a terminal of the set, and the end of the input is a terminal that
only the start rule keeps, as its last one. -/
structure Grammar.Retains [DecidableEq R] (g : Grammar R) (v : Vocabulary R) (kept : R → Bool)
    (last : R) : Prop where
  trivia : g.trivia.delegates kept = true
  covers : ∀ r, kept r = true → (g.rule r).covers (v.isTerminal r) kept = true
  start_kind : (g.rule g.start).kind = .normal
  start_body : (g.rule g.start).body.endsWith kept last = true
  start_not_terminal : v.isTerminal g.start = false
  last_rule : g.rule last = .normal .endOfInput
  last_terminal : v.isTerminal last = true
  last_not_kept : kept last = false

/-- What was found between two states covers what was read between them. -/
def State.Covers (v : Vocabulary R) (kept : R → Bool) (s s' : State R) : Prop :=
  ∃ new, s'.nodes = new ++ s.nodes ∧ Tiles s.pos (Match.spansAll v new.reverse) s'.pos ∧
    ∀ x ∈ Match.spansAll v new.reverse, kept x.kind = true

section Covers

variable {v : Vocabulary R} {kept : R → Bool}

theorem State.Covers.of_eq {s s' : State R} (hn : s'.nodes = s.nodes) (hp : s'.pos = s.pos) :
    s.Covers v kept s' := ⟨[], hn, hp.symm, nofun⟩

theorem State.Covers.trans {s₁ s₂ s₃ : State R} (h : s₁.Covers v kept s₂)
    (h' : s₂.Covers v kept s₃) : s₁.Covers v kept s₃ := by
  obtain ⟨new, hn, ht, hk⟩ := h
  obtain ⟨new', hn', ht', hk'⟩ := h'
  refine ⟨new' ++ new, by rw [hn', hn, List.append_assoc], ?_⟩
  rw [List.reverse_append, Match.spansAll_append]
  refine ⟨tiles_append.mpr ⟨_, ht, ht'⟩, fun x hx => ?_⟩
  exact (List.mem_append.mp hx).elim (hk x) (hk' x)

/-- An expression that looks at the state only and delegates neither moves nor leaves nodes. -/
theorem Expr.leaf?_delegates {e : Expr R} {s s' : State R} (h : e.leaf? s = some (some s'))
    (hd : e.delegates kept = true) : s'.nodes = s.nodes ∧ s'.pos = s.pos := by
  cases e with
  | word w =>
      obtain rfl : w = [] := List.isEmpty_iff.mp hd
      cases h
      exact ⟨rfl, rfl⟩
  | caseless w =>
      obtain rfl : w = [] := List.isEmpty_iff.mp hd
      cases h
      exact ⟨rfl, rfl⟩
  | startOfInput | endOfInput =>
      rw [Expr.leaf?, Option.some.injEq] at h
      split at h
      · cases h; exact ⟨rfl, rfl⟩
      · cases h
  | drop =>
      rw [Expr.leaf?, Option.some.injEq] at h
      split at h
      · cases h
      · cases h; exact ⟨rfl, rfl⟩
  | char | upTo | peek | pop => cases hd
  | _ => cases h

/-- Whether a task delegates to a set. -/
def Task.delegates (kept : R → Bool) : Task R → Bool
  | .part _ e | .rounds _ e => e.delegates kept
  | .rule r => kept r
  | .gap _ => true

theorem State.covers_terminal {s s' : State R} {r : R} (ht : v.isTerminal r = true)
    (hk : kept r = true) (h : s.Advances s') : s.Covers v kept (s.close r true s') := by
  refine ⟨[.node r s.pos s'.pos s'.nodes.reverse], rfl, ?_⟩
  simp only [List.reverse_singleton, Match.spansAll, Match.spans, ht, ↓reduceIte]
  exact ⟨⟨rfl, h.pos_le, rfl⟩, by simpa using hk⟩

theorem State.covers_production {s s' : State R} {r : R} (ht : v.isTerminal r = false)
    (h : { s with nodes := [] }.Covers v kept s') : s.Covers v kept (s.close r true s') := by
  obtain ⟨new, hn, htl, hk⟩ := h
  rw [List.append_nil] at hn
  refine ⟨[.node r s.pos s'.pos s'.nodes.reverse], rfl, ?_⟩
  simp only [List.reverse_singleton, Match.spansAll, Match.spans, ht, Bool.false_eq_true, ↓reduceIte,
    List.append_nil, hn]
  exact ⟨htl, hk⟩

variable [DecidableEq R] {g : Grammar R} {last : R}

/-- Outside lookaheads and atomic rules, what delegates to the set covers what it reads. -/
theorem Grammar.Retains.covers_reads (hg : g.Retains v kept last) {t : Task R} {c : Context}
    {s : State R} {o : Option (State R)} (h : g.Reads t c s o) : ∀ s', o = some s' →
      c.keepsNodes = true → t.delegates kept = true → s.Covers v kept s' := by
  induction h with
  | leaf h =>
      intro s' ho _ hd
      obtain ⟨hn, hp⟩ := Expr.leaf?_delegates (ho ▸ h) hd
      exact .of_eq hn hp
  | ref _ ih | group _ ih => exact ih
  | cat _ _ _ ih₁ ih₂ ih₃ =>
      intro s' ho hc hd
      obtain ⟨hd₁, hd₂⟩ := Bool.and_eq_true_iff.mp hd
      exact (ih₁ _ rfl hc hd₁).trans ((ih₂ _ rfl hc rfl).trans (ih₃ s' ho hc hd₂))
  | round _ _ _ ih₁ ih₂ ih₃ =>
      intro s' ho hc hd
      exact (ih₁ _ rfl hc rfl).trans ((ih₂ _ rfl hc hd).trans (ih₃ s' ho hc hd))
  | alt_left _ ih => intro s' ho hc hd; exact ih s' ho hc (Bool.and_eq_true_iff.mp hd).1
  | alt_right _ _ _ ih => intro s' ho hc hd; exact ih s' ho hc (Bool.and_eq_true_iff.mp hd).2
  | opt_some _ ih => exact ih
  | star_some _ _ ih₁ ih₂ => intro s' ho hc hd; exact (ih₁ _ rfl hc hd).trans (ih₂ s' ho hc hd)
  | mark_some _ ih =>
      intro s' ho hc hd
      cases ho
      obtain ⟨new, hn, ht, hk⟩ := ih _ rfl hc hd
      exact ⟨new, hn, ht, hk⟩
  | gap_free _ _ ih => intro s' ho hc _; exact ih s' ho hc hg.trivia
  | @silent r e _ _ _ hr _ ih =>
      intro s' ho hc hd
      have hcov := hg.covers r hd
      rw [hr] at hcov
      exact ih s' ho hc hcov
  | @named_some r k e c s s₁ hr hk h ih =>
      intro s' ho hc hd
      cases ho
      have hcov := hg.covers r hd
      rw [hr] at hcov
      have hkeep : k.keeps c = true := by
        cases k with
        | compound =>
            simp only [Context.keepsNodes, Bool.and_eq_true] at hc
            simp [RuleKind.keeps, Context.keepsNodes, hc.1]
        | _ => exact hc
      have hadv : s.Advances s₁ := (h.advances s₁ rfl).of_eq rfl rfl rfl rfl
      rw [hkeep]
      cases ht : v.isTerminal r with
      | true => exact State.covers_terminal ht hd hadv
      | false =>
          rw [ht] at hcov
          refine State.covers_production ht ?_
          cases k with
          | normal => exact ih s₁ rfl hc (Bool.or_eq_true_iff.mp hcov |>.resolve_right nofun)
          | silent => exact absurd rfl hk
          | atomic => cases hcov
          | compound => exact ih s₁ rfl hkeep (Bool.or_eq_true_iff.mp hcov |>.resolve_right nofun)
  | cat_left | cat_gap | ahead_none | notAhead_some | mark_none | named_none => nofun
  | _ => intro s' ho _ _; cases ho; exact .of_eq rfl rfl

theorem Grammar.Retains.reads_last (hg : g.Retains v kept last) {c : Context} {s s' : State R}
    (hc : c.keepsNodes = true) (h : g.Reads (.rule last) c s (some s')) :
    s.rest = [] ∧ s' = { s with nodes := .node last s.pos s.pos [] :: s.nodes } := by
  obtain ⟨o, h, ho⟩ := (reads_named hg.last_rule (by decide)).mp h
  obtain rfl := (reads_leaf rfl).mp h
  split at ho
  next he =>
    rw [show RuleKind.keeps .normal c = true from hc] at ho
    exact ⟨List.isEmpty_iff.mp he, Option.some.inj ho⟩
  next => cases ho

/-- What ends with the end of the input covers all that is left of the input before that. -/
theorem Grammar.Retains.reads_endsWith (hg : g.Retains v kept last) {b : Bool} {e : Expr R}
    {c : Context} (hc : c.keepsNodes = true) : ∀ {s s' : State R}, e.endsWith kept last = true →
      g.Reads (.part b e) c s (some s') → ∃ s₁ : State R, s.Covers v kept s₁ ∧ s.Advances s₁ ∧
        s₁.rest = [] ∧ s' = { s₁ with nodes := .node last s₁.pos s₁.pos [] :: s₁.nodes } := by
  induction e with
  | ref r =>
      intro s s' he h
      obtain rfl : r = last := of_decide_eq_true he
      obtain ⟨hr, rfl⟩ := hg.reads_last hc (reads_ref.mp h)
      exact ⟨s, .of_eq rfl rfl, .refl s, hr, rfl⟩
  | cat e₁ e₂ _ ih =>
      intro s s' he h
      obtain ⟨hd, he⟩ := Bool.and_eq_true_iff.mp he
      obtain ⟨_, ho⟩ | ⟨s₁, h₁, ⟨_, ho⟩ | ⟨s₂, h₂, h₃⟩⟩ := reads_cat.mp h
      · cases ho
      · cases ho
      · obtain ⟨s₃, hcov, hadv, hr, hs⟩ := ih he h₃
        have hcov₁ := hg.covers_reads h₁ s₁ rfl hc hd
        have hcov₂ := hg.covers_reads h₂ s₂ rfl hc rfl
        have hadv₁ := (h₁.advances s₁ rfl).trans (h₂.advances s₂ rfl)
        exact ⟨s₃, hcov₁.trans (hcov₂.trans hcov), hadv₁.trans hadv, hr, hs⟩
  | group e ih =>
      intro s s' he h
      exact ih he (reads_group.mp h)
  | _ => intro s s' he; cases he

/-- The terminals of a parse tile the source, and the end of the input follows them. -/
theorem Grammar.Retains.tiles_parse (hg : g.Retains v kept last) {limit : Option Nat}
    {source : List Char} {ms : List (Match R)} (h : g.parse limit source = .ok ms) :
    ∃ m xs, ms = [m] ∧ m.spans v = xs ++ [⟨last, source.length, source.length⟩] ∧
      Tiles 0 xs source.length ∧ ∀ x ∈ xs, kept x.kind = true := by
  obtain ⟨s, hr, rfl⟩ := g.reads_of_parse h
  have hrule : g.rule g.start = ⟨.normal, (g.rule g.start).body⟩ := by rw [← hg.start_kind]
  obtain ⟨o, hbody, ho⟩ := (reads_named hrule (by decide)).mp hr
  obtain ⟨s', rfl, rfl⟩ := Option.map_eq_some_iff.mp ho.symm
  obtain ⟨s₁, ⟨new, hn, ht, hk⟩, ⟨w, hw, hp⟩, hrest, rfl⟩ :=
    hg.reads_endsWith rfl hg.start_body hbody
  have hw : source = w := by rw [hrest, List.append_nil] at hw; exact hw
  have hpos : s₁.pos = source.length := by rw [hp, hw]; exact Nat.zero_add _
  have hnodes : s₁.nodes = new := by rw [hn]; exact List.append_nil new
  refine ⟨_, Match.spansAll v new.reverse, rfl, ?_, hpos ▸ ht, hk⟩
  simp only [Match.spans, hg.start_not_terminal, Bool.false_eq_true, ↓reduceIte, List.reverse_cons,
    Match.spansAll_append, Match.spansAll, hg.last_terminal, List.append_nil, hnodes, hpos]

end Covers

end ConcreteSyntax
