import ConcreteSyntax.Proofs.Grammar.Coverage

/-! # Tokens as functions of the input

Inside an atomic rule nothing stands between the parts and no nodes are kept, so what an expression
reads depends on the rest of the input only.

* **Lengths** (`Expr.lex`).  How many characters an expression reads there, if it matches.
* **Lexical expressions** (`Expr.isLexical`).  They use no marks, refer only to rules whose length is known,
  and go round only where a round reads something.  A reading of such an expression jumps over as many
  characters as `lex` says (`Expr.reads_lex`), so that an atomic rule over it leaves one node without
  parts (`Grammar.reads_atomic`). -/

namespace ConcreteSyntax

variable {R : Type}

/-- The state `n` characters further on. -/
def State.jump (s : State R) (n : Nat) : State R := s.advance (s.rest.drop n) n

@[simp] theorem State.rest_jump (s : State R) (n : Nat) : (s.jump n).rest = s.rest.drop n := rfl

theorem State.jump_jump (s : State R) (m n : Nat) : (s.jump m).jump n = s.jump (m + n) := by
  simp [State.jump, State.advance, List.drop_drop, Nat.add_assoc]

/-- The state after a token of `n` characters. -/
def State.token (s : State R) (r : R) (n : Nat) : State R :=
  { s.jump n with nodes := .node r s.pos (s.pos + n) [] :: s.nodes }

theorem stripWord_append (w rest : List Char) : stripWord w (w ++ rest) = some rest := by
  induction w with
  | nil => rfl
  | cons a w ih => rw [List.cons_append, stripWord, if_pos rfl, ih]

/-! ### Lengths -/

/-- How many characters the rounds of a repetition read, in at most so many rounds. -/
def lexRounds (f : List Char → Option Nat) : Nat → List Char → Nat
  | 0, _ => 0
  | k + 1, cs =>
    match f cs with
    | some n => n + lexRounds f k (cs.drop n)
    | none => 0

namespace Expr

/-- How many characters an expression reads, given how many the rules it refers to read. -/
def lex (call : R → List Char → Option Nat) : Expr R → List Char → Option Nat
  | .word w, cs => (stripWord w cs).map fun _ => w.length
  | .caseless w, cs => (stripCaseless w cs).map fun _ => w.length
  | .char _, [] => none
  | .char k, ch :: _ => if k.mem ch then some 1 else none
  | .endOfInput, cs => if cs.isEmpty then some 0 else none
  | .upTo stops, cs => some (skipUpTo stops cs 0).2
  | .ref r, cs => call r cs
  | .cat a b, cs => (a.lex call cs).bind fun n => (b.lex call (cs.drop n)).map (n + ·)
  | .group e, cs => e.lex call cs
  | .alt a b, cs => (a.lex call cs).or (b.lex call cs)
  | .opt e, cs => (e.lex call cs).or (some 0)
  | .star e, cs => some (lexRounds (e.lex call) cs.length cs)
  | .ahead e, cs => (e.lex call cs).map fun _ => 0
  | .notAhead e, cs => if (e.lex call cs).isSome then none else some 0
  | .startOfInput, _ | .mark _, _ | .peek, _ | .pop, _ | .drop, _ => none

section

variable (call : R → List Char → Option Nat) (e e₁ e₂ : Expr R) (cs : List Char)

theorem lex_word (w : List Char) :
    (word w).lex call cs = (stripWord w cs).map fun _ => w.length := rfl

theorem lex_cat : (cat e₁ e₂).lex call cs =
    (e₁.lex call cs).bind fun n => (e₂.lex call (cs.drop n)).map (n + ·) := rfl

theorem lex_opt : (opt e).lex call cs = (e.lex call cs).or (some 0) := rfl

theorem lex_star : (star e).lex call cs = some (lexRounds (e.lex call) cs.length cs) := rfl

theorem lex_notAhead :
    (notAhead e).lex call cs = if (e.lex call cs).isSome then none else some 0 := rfl

end

/-- The expression reads something where it matches, if known rules do. -/
def consumes (known : R → Bool) : Expr R → Bool
  | .word w | .caseless w => !w.isEmpty
  | .char _ => true
  | .ref r => known r
  | .cat a b => a.consumes known || b.consumes known
  | .group e => e.consumes known
  | .alt a b => a.consumes known && b.consumes known
  | _ => false

/-- The expression looks at the rest of the input only, refers to known rules only, and repeats only
what reads something. -/
def isLexical (known : R → Bool) : Expr R → Bool
  | .word _ | .caseless _ | .char _ | .endOfInput | .upTo _ => true
  | .ref r => known r
  | .cat a b | .alt a b => a.isLexical known && b.isLexical known
  | .group e | .opt e | .ahead e | .notAhead e => e.isLexical known
  | .star e => e.isLexical known && e.consumes known
  | .startOfInput | .mark _ | .peek | .pop | .drop => false

end Expr

/-- `call` says how many characters the known rules read where no trivia and no nodes are kept. -/
structure Grammar.Lexes (g : Grammar R) (known : R → Bool) (call : R → List Char → Option Nat) :
    Prop where
  reads : ∀ r, known r = true → ∀ (c : Context) (s : State R), c.atomicity ≠ .free →
    g.Reads (.rule r) c s ((call r s.rest).map s.jump)
  pos : ∀ r, known r = true → ∀ cs n, call r cs = some n → 0 < n
  le : ∀ r, known r = true → ∀ cs n, call r cs = some n → n ≤ cs.length

theorem Grammar.lexes_none (g : Grammar R) : g.Lexes (fun _ => false) fun _ _ => none :=
  ⟨nofun, nofun, nofun⟩

section Lengths

variable {g : Grammar R} {known : R → Bool} {call : R → List Char → Option Nat}

theorem lexRounds_le {f : List Char → Option Nat} (hf : ∀ cs n, f cs = some n → n ≤ cs.length)
    (k : Nat) (cs : List Char) : lexRounds f k cs ≤ cs.length := by
  induction k generalizing cs with
  | zero => exact Nat.zero_le _
  | succ k ih =>
      rw [lexRounds]
      split
      next n hn =>
        have := ih (cs.drop n)
        have := hf cs n hn
        rw [List.length_drop] at *
        omega
      next => exact Nat.zero_le _

theorem Expr.lex_le (hcall : g.Lexes known call) {e : Expr R} (he : e.isLexical known = true)
    {cs : List Char} {n : Nat} (h : e.lex call cs = some n) : n ≤ cs.length := by
  induction e generalizing cs n with
  | word w =>
      obtain ⟨rest, hr, rfl⟩ := Option.map_eq_some_iff.mp h
      rw [stripWord_eq_some hr, List.length_append]
      exact Nat.le_add_right ..
  | caseless w =>
      obtain ⟨rest, hr, rfl⟩ := Option.map_eq_some_iff.mp h
      obtain ⟨u, hu, hl⟩ := stripCaseless_eq_some hr
      rw [hu, List.length_append, hl]
      exact Nat.le_add_right ..
  | char k =>
      cases cs with
      | nil => cases h
      | cons ch cs =>
          rw [Expr.lex] at h
          split at h
          · cases h
            exact Nat.succ_le_succ (Nat.zero_le _)
          · cases h
  | endOfInput =>
      rw [Expr.lex] at h
      split at h
      · cases h
        exact Nat.zero_le _
      · cases h
  | upTo stops =>
      cases h
      obtain ⟨u, hu, hn⟩ := skipUpTo_spec stops cs 0
      rw [hn, congrArg List.length hu, List.length_append]
      omega
  | ref r => exact hcall.le r he cs n h
  | cat a b iha ihb =>
      rw [Expr.isLexical, Bool.and_eq_true] at he
      obtain ⟨m, hm, h⟩ := Option.bind_eq_some_iff.mp h
      obtain ⟨k, hk, rfl⟩ := Option.map_eq_some_iff.mp h
      have := iha he.1 hm
      have := ihb he.2 hk
      rw [List.length_drop] at this
      omega
  | group e ih => exact ih he h
  | alt a b iha ihb =>
      rw [Expr.isLexical, Bool.and_eq_true] at he
      rcases Option.or_eq_some_iff.mp h with h | ⟨_, h⟩
      · exact iha he.1 h
      · exact ihb he.2 h
  | opt e ih =>
      rcases Option.or_eq_some_iff.mp h with h | ⟨_, h⟩
      · exact ih he h
      · cases h
        exact Nat.zero_le _
  | star e ih =>
      rw [Expr.isLexical, Bool.and_eq_true] at he
      cases h
      exact lexRounds_le (fun cs n h => ih he.1 h) _ _
  | ahead e ih =>
      obtain ⟨m, hm, rfl⟩ := Option.map_eq_some_iff.mp h
      exact Nat.zero_le _
  | notAhead e ih =>
      rw [Expr.lex] at h
      split at h
      · cases h
      · cases h
        exact Nat.zero_le _
  | startOfInput | mark | peek | pop | drop => cases h

theorem Expr.lex_pos (hcall : g.Lexes known call) {e : Expr R} (he : e.consumes known = true)
    {cs : List Char} {n : Nat} (h : e.lex call cs = some n) : 0 < n := by
  induction e generalizing cs n with
  | word w | caseless w =>
      obtain ⟨rest, hr, rfl⟩ := Option.map_eq_some_iff.mp h
      cases w with
      | nil => cases he
      | cons a w => exact Nat.succ_pos _
  | char k =>
      cases cs with
      | nil => cases h
      | cons ch cs =>
          rw [Expr.lex] at h
          split at h
          · cases h
            exact Nat.one_pos
          · cases h
  | ref r => exact hcall.pos r he cs n h
  | cat a b iha ihb =>
      rw [Expr.consumes, Bool.or_eq_true] at he
      obtain ⟨m, hm, h⟩ := Option.bind_eq_some_iff.mp h
      obtain ⟨k, hk, rfl⟩ := Option.map_eq_some_iff.mp h
      rcases he with he | he
      · exact Nat.add_pos_left (iha he hm) k
      · exact Nat.add_pos_right m (ihb he hk)
  | group e ih => exact ih he h
  | alt a b iha ihb =>
      rw [Expr.consumes, Bool.and_eq_true] at he
      rcases Option.or_eq_some_iff.mp h with h | ⟨_, h⟩
      · exact iha he.1 h
      · exact ihb he.2 h
  | opt | star | ahead | notAhead | startOfInput | endOfInput | upTo | mark | peek | pop | drop =>
      cases he

end Lengths

/-! ### What an expression takes -/

theorem lexRounds_of_le {f : List Char → Option Nat} (hpos : ∀ cs n, f cs = some n → 0 < n)
    (hle : ∀ cs n, f cs = some n → n ≤ cs.length) :
    ∀ (k : Nat) (cs : List Char), cs.length ≤ k → lexRounds f k cs = lexRounds f cs.length cs := by
  intro k
  induction k using Nat.strongRecOn with
  | ind k ih =>
      intro cs hk
      rcases Nat.eq_or_lt_of_le hk with rfl | hlt
      · rfl
      · obtain ⟨k, rfl⟩ : ∃ k', k = k' + 1 := ⟨k - 1, by omega⟩
        cases hf : f cs with
        | none =>
            rw [lexRounds, hf]
            cases cs.length with
            | zero => rfl
            | succ m => rw [lexRounds, hf]
        | some n =>
            have hn := hpos cs n hf
            have hn' := hle cs n hf
            obtain ⟨m, hm⟩ : ∃ m, cs.length = m + 1 := ⟨cs.length - 1, by omega⟩
            have hdrop : (cs.drop n).length ≤ m := by
              rw [List.length_drop]
              omega
            simp only [hm, lexRounds, hf]
            rw [ih k (by omega) (cs.drop n) (by omega), ih m (by omega) (cs.drop n) hdrop]

namespace Expr

variable (call : R → List Char → Option Nat)

/-- In front of `rest` the expression reads `w` and nothing more. -/
def Takes (e : Expr R) (w rest : List Char) : Prop := e.lex call (w ++ rest) = some w.length

variable {call} {e e₁ e₂ : Expr R} {w rest : List Char}

theorem takes_of_lex {cs : List Char} {n : Nat} (h : e.lex call cs = some n) (hn : n ≤ cs.length) :
    e.Takes call (cs.take n) (cs.drop n) := by
  rw [Takes, List.take_append_drop, h, List.length_take, Nat.min_eq_left hn]

theorem takes_word {u : List Char} : (word u).Takes call w rest ↔ w = u := by
  rw [Takes, lex_word, Option.map_eq_some_iff]
  constructor
  · rintro ⟨r, hr, hl⟩
    exact (List.append_inj (stripWord_eq_some hr) hl.symm).1
  · rintro rfl
    exact ⟨rest, stripWord_append w rest, rfl⟩

theorem takes_group : (group e).Takes call w rest ↔ e.Takes call w rest := Iff.rfl

theorem takes_cat : (cat e₁ e₂).Takes call w rest ↔
    ∃ u v, w = u ++ v ∧ e₁.Takes call u (v ++ rest) ∧ e₂.Takes call v rest := by
  rw [Takes, lex_cat]
  constructor
  · intro h
    obtain ⟨m, hm, h⟩ := Option.bind_eq_some_iff.mp h
    obtain ⟨k, hk, hmk⟩ := Option.map_eq_some_iff.mp h
    have hle : m ≤ w.length := by omega
    refine ⟨w.take m, w.drop m, (List.take_append_drop m w).symm, ?_, ?_⟩
    · rw [Takes, ← List.append_assoc, List.take_append_drop, hm, List.length_take,
        Nat.min_eq_left hle]
    · rw [List.drop_append_of_le_length hle] at hk
      rw [Takes, hk, List.length_drop]
      congr 1
      omega
  · rintro ⟨u, v, rfl, hu, hv⟩
    rw [Takes] at hu hv
    rw [List.append_assoc, hu, Option.bind_some, List.drop_left, hv, List.length_append]
    rfl

theorem takes_alt : (alt e₁ e₂).Takes call w rest ↔
    e₁.Takes call w rest ∨ e₁.lex call (w ++ rest) = none ∧ e₂.Takes call w rest :=
  Option.or_eq_some_iff

theorem takes_opt : (opt e).Takes call w rest ↔
    e.Takes call w rest ∨ w = [] ∧ e.lex call rest = none := by
  rw [Takes, lex_opt, Option.or_eq_some_iff, Option.some.injEq, Takes]
  constructor
  · rintro (h | ⟨h, hw⟩)
    · exact .inl h
    · obtain rfl := List.eq_nil_of_length_eq_zero hw.symm
      exact .inr ⟨rfl, h⟩
  · rintro (h | ⟨rfl, h⟩)
    · exact .inl h
    · exact .inr ⟨h, rfl⟩

theorem takes_notAhead : (notAhead e).Takes call w rest ↔ w = [] ∧ e.lex call rest = none := by
  rw [Takes, lex_notAhead]
  constructor
  · intro h
    split at h
    next => cases h
    next hn =>
      obtain rfl := List.eq_nil_of_length_eq_zero (Option.some.inj h).symm
      exact ⟨rfl, Option.not_isSome_iff_eq_none.mp hn⟩
  · rintro ⟨rfl, h⟩
    rw [List.nil_append, h]
    rfl

theorem takes_star (hpos : ∀ cs n, e.lex call cs = some n → 0 < n)
    (hle : ∀ cs n, e.lex call cs = some n → n ≤ cs.length) :
    (star e).Takes call w rest ↔ w = [] ∧ e.lex call rest = none ∨
      ∃ u v, w = u ++ v ∧ e.Takes call u (v ++ rest) ∧ (star e).Takes call v rest := by
  have hstep : ∀ cs n, e.lex call cs = some n →
      lexRounds (e.lex call) cs.length cs = n + lexRounds (e.lex call) (cs.drop n).length (cs.drop n) := by
    intro cs n h
    have := hpos cs n h
    have := hle cs n h
    obtain ⟨m, hm⟩ : ∃ m, cs.length = m + 1 := ⟨cs.length - 1, by omega⟩
    rw [hm, lexRounds, h]
    simp only
    rw [lexRounds_of_le hpos hle m (cs.drop n) (by rw [List.length_drop]; omega)]
  have hstop : ∀ cs, e.lex call cs = none → lexRounds (e.lex call) cs.length cs = 0 := by
    intro cs h
    cases cs.length with
    | zero => rfl
    | succ m => rw [lexRounds, h]
  rw [Takes, lex_star, Option.some.injEq]
  constructor
  · intro h
    cases hf : e.lex call (w ++ rest) with
    | none =>
        rw [hstop _ hf] at h
        obtain rfl := List.eq_nil_of_length_eq_zero h.symm
        exact .inl ⟨rfl, hf⟩
    | some n =>
        rw [hstep _ n hf] at h
        have hn : n ≤ w.length := by omega
        refine .inr ⟨w.take n, w.drop n, (List.take_append_drop n w).symm, ?_, ?_⟩
        · rw [Takes, ← List.append_assoc, List.take_append_drop, hf, List.length_take,
            Nat.min_eq_left hn]
        · rw [List.drop_append_of_le_length hn] at h
          rw [Takes, lex_star, Option.some.injEq, List.length_drop]
          omega
  · rintro (⟨rfl, h⟩ | ⟨u, v, rfl, hu, hv⟩)
    · exact hstop _ h
    · rw [Takes] at hu
      rw [Takes, lex_star, Option.some.injEq] at hv
      rw [List.append_assoc, hstep _ _ hu, List.drop_left, hv, List.length_append]

variable (call) in
/-- The expression reads one character of a class. -/
def IsClass (e : Expr R) (p : Char → Bool) : Prop :=
  ∀ cs, e.lex call cs = match cs with
    | [] => none
    | ch :: _ => if p ch then some 1 else none

theorem takes_of_class {p : Char → Bool} (hp : e.IsClass call p) :
    e.Takes call w rest ↔ ∃ ch, p ch = true ∧ w = [ch] := by
  rw [Takes, hp]
  cases w with
  | nil => cases rest with
    | nil => simp
    | cons ch rest => simp
  | cons ch w =>
      refine ⟨fun h => ⟨ch, by simpa using h⟩, ?_⟩
      rintro ⟨ch', hch, h⟩
      cases h
      simp [hch]

theorem IsClass.lex_eq_none {p : Char → Bool} (hp : e.IsClass call p) {cs : List Char} :
    e.lex call cs = none ↔ ∀ ch ∈ cs.head?, p ch = false := by
  rw [hp]
  cases cs with
  | nil => simp
  | cons ch cs => simp

theorem IsClass.alt {p q : Char → Bool} (hp : e₁.IsClass call p) (hq : e₂.IsClass call q) :
    (alt e₁ e₂).IsClass call fun ch => p ch || q ch := by
  intro cs
  rw [lex, hp, hq]
  cases cs with
  | nil => rfl
  | cons ch cs => cases h : p ch <;> simp [h]

theorem isClass_word (a : Char) : (word [a]).IsClass call (· == a) := by
  intro cs
  cases cs with
  | nil => rfl
  | cons ch cs =>
      by_cases h : ch = a
      · simp [lex, stripWord, h]
      · simp [lex, stripWord, h, Ne.symm h]

theorem isClass_char (k : CharClass) : (char k).IsClass call k.mem := by
  intro cs
  cases cs <;> rfl

theorem takes_char {k : CharClass} :
    (char k).Takes call w rest ↔ ∃ ch, k.mem ch = true ∧ w = [ch] :=
  takes_of_class (isClass_char k)

/-- A repeated character class takes characters of the class up to one outside of it. -/
theorem takes_star_of_class {p : Char → Bool} (hp : e.IsClass call p) :
    (star e).Takes call w rest ↔ (∀ ch ∈ w, p ch = true) ∧ ∀ ch ∈ rest.head?, p ch = false := by
  have hpos : ∀ cs n, e.lex call cs = some n → 0 < n ∧ n ≤ cs.length := by
    intro cs n h
    rw [hp] at h
    cases cs with
    | nil => cases h
    | cons ch cs =>
        simp only at h
        split at h
        · cases h
          exact ⟨Nat.one_pos, Nat.succ_le_succ (Nat.zero_le _)⟩
        · cases h
  induction w with
  | nil =>
      rw [takes_star (fun cs n h => (hpos cs n h).1) (fun cs n h => (hpos cs n h).2), hp.lex_eq_none]
      constructor
      · rintro (⟨_, h⟩ | ⟨u, v, huv, hu, _⟩)
        · exact ⟨nofun, h⟩
        · obtain ⟨ch, _, rfl⟩ := (takes_of_class hp).mp hu
          cases huv
      · exact fun h => .inl ⟨rfl, h.2⟩
  | cons ch w ih =>
      rw [takes_star (fun cs n h => (hpos cs n h).1) (fun cs n h => (hpos cs n h).2)]
      constructor
      · rintro (⟨h, _⟩ | ⟨u, v, huv, hu, hv⟩)
        · cases h
        · obtain ⟨ch', hch, rfl⟩ := (takes_of_class hp).mp hu
          cases huv
          have := ih.mp hv
          exact ⟨List.forall_mem_cons.mpr ⟨hch, this.1⟩, this.2⟩
      · rintro ⟨hw, hr⟩
        obtain ⟨hch, hw⟩ := List.forall_mem_cons.mp hw
        exact .inr ⟨[ch], w, rfl, (takes_of_class hp).mpr ⟨ch, hch, rfl⟩, ih.mpr ⟨hw, hr⟩⟩

end Expr

/-! ### Readings -/

namespace Grammar

variable {g : Grammar R} {known : R → Bool} {call : R → List Char → Option Nat} {b : Bool}
  {e : Expr R} {c : Context}

theorem reads_gap (hc : c.atomicity ≠ .free) (s : State R) : g.Reads (.gap b) c s (some s) := by
  cases b with
  | false => exact .gap_tight
  | true => exact .gap_closed hc

theorem reads_cat_closed {e₁ e₂ : Expr R} (hc : c.atomicity ≠ .free) {s : State R}
    {o : Option (State R)} : g.Reads (.part b (.cat e₁ e₂)) c s o ↔
      g.Reads (.part b e₁) c s none ∧ o = none ∨
        ∃ s₁, g.Reads (.part b e₁) c s (some s₁) ∧ g.Reads (.part b e₂) c s₁ o := by
  rw [reads_cat]
  constructor
  · rintro (h | ⟨s₁, h₁, ⟨hgap, _⟩ | ⟨s₂, hgap, h₂⟩⟩)
    · exact .inl h
    · cases (reads_gap hc s₁).unique hgap
    · cases (reads_gap hc s₁).unique hgap
      exact .inr ⟨s₁, h₁, h₂⟩
  · rintro (h | ⟨s₁, h₁, h₂⟩)
    · exact .inl h
    · exact .inr ⟨s₁, h₁, .inr ⟨s₁, reads_gap hc s₁, h₂⟩⟩

theorem reads_cat_closed_some {e₁ e₂ : Expr R} (hc : c.atomicity ≠ .free) {s s' : State R} :
    g.Reads (.part b (.cat e₁ e₂)) c s (some s') ↔
      ∃ s₁, g.Reads (.part b e₁) c s (some s₁) ∧ g.Reads (.part b e₂) c s₁ (some s') := by
  rw [reads_cat_closed hc]
  simp

/-- Where nothing stands between the rounds, a repetition is a round and then a repetition. -/
theorem reads_star_closed (hc : c.atomicity ≠ .free) {s : State R} {o : Option (State R)} :
    g.Reads (.part b (.star e)) c s o ↔
      g.Reads (.part b e) c s none ∧ o = some s ∨
        ∃ s₁, g.Reads (.part b e) c s (some s₁) ∧ g.Reads (.part b (.star e)) c s₁ o := by
  have hrounds : ∀ {s : State R}, g.Reads (.rounds b e) c s o ↔ g.Reads (.part b (.star e)) c s o := by
    intro s
    rw [reads_rounds, reads_star]
    constructor
    · rintro (⟨hgap, _⟩ | ⟨s₁, hgap, ⟨h, ho⟩ | ⟨s₂, h, hr⟩⟩)
      · cases (reads_gap hc s).unique hgap
      · cases (reads_gap hc s).unique hgap
        exact .inr ⟨h, ho⟩
      · cases (reads_gap hc s).unique hgap
        exact .inl ⟨s₂, h, hr⟩
    · rintro (⟨s₁, h, hr⟩ | h)
      · exact .inr ⟨s, reads_gap hc s, .inr ⟨s₁, h, hr⟩⟩
      · exact .inr ⟨s, reads_gap hc s, .inl h⟩
  rw [reads_star]
  simp only [hrounds]
  exact or_comm

theorem reads_lexRounds {f : List Char → Option Nat} (hc : c.atomicity ≠ .free)
    (hpos : ∀ cs n, f cs = some n → 0 < n) (hle : ∀ cs n, f cs = some n → n ≤ cs.length)
    (hread : ∀ s : State R, g.Reads (.part b e) c s ((f s.rest).map s.jump)) :
    ∀ (k : Nat) (s : State R), s.rest.length ≤ k →
      g.Reads (.rounds b e) c s (some (s.jump (lexRounds f k s.rest)))
  | 0, s, hk => by
      have hnone : f s.rest = none := by
        cases hf : f s.rest with
        | none => rfl
        | some n =>
            have := hpos _ n hf
            have := hle _ n hf
            omega
      have h := hread s
      rw [hnone] at h
      exact .rounds_end (reads_gap hc s) h
  | k + 1, s, hk => by
      have h := hread s
      rw [lexRounds]
      cases hf : f s.rest with
      | none =>
          rw [hf] at h
          exact .rounds_end (reads_gap hc s) h
      | some n =>
          rw [hf] at h
          have hshort : (s.jump n).rest.length ≤ k := by
            have := hpos _ n hf
            rw [State.rest_jump, List.length_drop]
            omega
          have ih := reads_lexRounds hc hpos hle hread k (s.jump n) hshort
          rw [State.jump_jump] at ih
          exact .round (reads_gap hc s) h ih

end Grammar

/-- A lexical expression reads as many characters as `lex` says. -/
theorem Expr.reads_lex {g : Grammar R} {known : R → Bool} {call : R → List Char → Option Nat}
    (hcall : g.Lexes known call) {e : Expr R} (he : e.isLexical known = true) {b : Bool}
    {c : Context} (hc : c.atomicity ≠ .free) (s : State R) :
    g.Reads (.part b e) c s ((e.lex call s.rest).map s.jump) := by
  induction e generalizing c s with
  | word w =>
      refine .leaf ?_
      rw [Expr.leaf?, Expr.lex, State.strip?, Option.map_map]
      cases hw : stripWord w s.rest with
      | none => rfl
      | some rest =>
          rw [Option.map_some, Option.map_some, Function.comp_apply, State.jump, stripWord_eq_some hw,
            List.drop_left]
  | caseless w =>
      refine .leaf ?_
      rw [Expr.leaf?, Expr.lex, Option.map_map]
      cases hw : stripCaseless w s.rest with
      | none => rfl
      | some rest =>
          obtain ⟨u, hu, hl⟩ := stripCaseless_eq_some hw
          rw [Option.map_some, Option.map_some, Function.comp_apply, State.jump, hu, ← hl, List.drop_left]
  | char k =>
      refine .leaf ?_
      rw [Expr.leaf?]
      cases hr : s.rest with
      | nil => rfl
      | cons ch rest =>
          by_cases hk : k.mem ch = true
          · simp [Expr.lex, hk, State.jump, hr]
          · simp [Expr.lex, hk]
  | endOfInput =>
      refine .leaf ?_
      rw [Expr.leaf?, Expr.lex]
      cases s.rest.isEmpty <;> rfl
  | upTo stops =>
      refine .leaf ?_
      obtain ⟨u, hu, hn⟩ := skipUpTo_spec stops s.rest 0
      have hdrop : s.rest.drop (skipUpTo stops s.rest 0).2 = (skipUpTo stops s.rest 0).1 := by
        rw [hn, Nat.zero_add]
        exact (congrArg (List.drop u.length) hu).trans List.drop_left
      rw [Expr.leaf?, Expr.lex, Option.map_some, State.jump, hdrop]
  | ref r => exact .ref (hcall.reads r he c s hc)
  | cat a b iha ihb =>
      rw [Expr.isLexical, Bool.and_eq_true] at he
      have ha := iha he.1 hc s
      rw [Expr.lex]
      cases hl : a.lex call s.rest with
      | none =>
          rw [hl] at ha
          exact .cat_left ha
      | some n =>
          rw [hl] at ha
          have hb := ihb he.2 hc (s.jump n)
          rw [State.rest_jump] at hb
          refine .cat ha (Grammar.reads_gap hc _) ?_
          have hjump : s.jump ∘ (n + ·) = (s.jump n).jump := by
            funext m
            exact (s.jump_jump n m).symm
          rw [Option.bind_some, Option.map_map, hjump]
          exact hb
  | group e ih => exact .group (ih he hc s)
  | alt a b iha ihb =>
      rw [Expr.isLexical, Bool.and_eq_true] at he
      have ha := iha he.1 hc s
      rw [Expr.lex]
      cases hl : a.lex call s.rest with
      | none =>
          rw [hl] at ha
          exact .alt_right ha (ihb he.2 hc s)
      | some n =>
          rw [hl] at ha
          exact .alt_left ha
  | opt e ih =>
      have h := ih he hc s
      rw [Expr.lex]
      cases hl : e.lex call s.rest with
      | none =>
          rw [hl] at h
          exact .opt_none h
      | some n =>
          rw [hl] at h
          exact .opt_some h
  | star e ih =>
      rw [Expr.isLexical, Bool.and_eq_true] at he
      have hpos : ∀ cs n, e.lex call cs = some n → 0 < n := fun _ _ => Expr.lex_pos hcall he.2
      have hle : ∀ cs n, e.lex call cs = some n → n ≤ cs.length := fun _ _ => Expr.lex_le hcall he.1
      have h := ih he.1 hc s
      rw [Expr.lex, Option.map_some]
      cases hl : e.lex call s.rest with
      | none =>
          rw [hl] at h
          have hzero : lexRounds (e.lex call) s.rest.length s.rest = 0 := by
            cases s.rest.length with
            | zero => rfl
            | succ k => rw [lexRounds, hl]
          rw [hzero]
          exact .star_none h
      | some n =>
          rw [hl] at h
          have hn := hpos _ n hl
          have hn' := hle _ n hl
          obtain ⟨k, hk⟩ : ∃ k, s.rest.length = k + 1 := ⟨s.rest.length - 1, by omega⟩
          have hrounds := Grammar.reads_lexRounds hc hpos hle (ih he.1 hc) k (s.jump n) (by
            rw [State.rest_jump, List.length_drop]
            omega)
          rw [State.jump_jump, State.rest_jump] at hrounds
          rw [hk, lexRounds, hl]
          exact .star_some h hrounds
  | ahead e ih =>
      have h := ih he (c := { c with lookahead := c.lookahead.affirm }) hc s
      rw [Expr.lex]
      cases hl : e.lex call s.rest with
      | none =>
          rw [hl] at h
          exact .ahead_none h
      | some n =>
          rw [hl] at h
          exact .ahead_some h
  | notAhead e ih =>
      have h := ih he (c := { c with lookahead := c.lookahead.negate }) hc s
      rw [Expr.lex]
      cases hl : e.lex call s.rest with
      | none =>
          rw [hl] at h
          exact .notAhead_none h
      | some n =>
          rw [hl] at h
          exact .notAhead_some h
  | startOfInput | mark | peek | pop | drop => cases he

namespace Grammar

variable {g : Grammar R} {known : R → Bool} {call : R → List Char → Option Nat} {e : Expr R}
  {c : Context}

/-- What a reading of known length takes. -/
theorem Reads.iff_takes {t : Task R} {s s' : State R} {f : Nat → State R} (hcall : g.Lexes known call)
    (he : e.isLexical known = true) (hf : ∀ n, (f n).rest = s.rest.drop n)
    (hread : g.Reads t c s ((e.lex call s.rest).map f)) : g.Reads t c s (some s') ↔
      ∃ w, s.rest = w ++ s'.rest ∧ e.Takes call w s'.rest ∧ s' = f w.length := by
  constructor
  · intro h
    obtain ⟨n, hn, rfl⟩ := Option.map_eq_some_iff.mp (hread.unique h)
    have hle := Expr.lex_le hcall he hn
    have hlen : (s.rest.take n).length = n := by rw [List.length_take, Nat.min_eq_left hle]
    refine ⟨s.rest.take n, ?_, ?_, by rw [hlen]⟩
    · rw [hf, List.take_append_drop]
    · rw [hf]
      exact Expr.takes_of_lex hn hle
  · rintro ⟨w, hw, ht, hs⟩
    rw [hw, show e.lex call (w ++ s'.rest) = some w.length from ht, Option.map_some, ← hs] at hread
    exact hread

theorem Reads.none_iff_lex {t : Task R} {s : State R} {f : Nat → State R}
    (hread : g.Reads t c s ((e.lex call s.rest).map f)) :
    g.Reads t c s none ↔ e.lex call s.rest = none := by
  constructor
  · exact fun h => Option.map_eq_none_iff.mp (hread.unique h)
  · intro h
    rw [h] at hread
    exact hread

theorem reads_lex_some (hcall : g.Lexes known call) (he : e.isLexical known = true) {b : Bool}
    (hc : c.atomicity ≠ .free) {s s' : State R} : g.Reads (.part b e) c s (some s') ↔
      ∃ w, s.rest = w ++ s'.rest ∧ e.Takes call w s'.rest ∧ s' = s.jump w.length :=
  Reads.iff_takes hcall he (fun _ => rfl) (Expr.reads_lex hcall he hc s)

theorem reads_lex_none (hcall : g.Lexes known call) (he : e.isLexical known = true) {b : Bool}
    (hc : c.atomicity ≠ .free) {s : State R} :
    g.Reads (.part b e) c s none ↔ e.lex call s.rest = none :=
  Reads.none_iff_lex (Expr.reads_lex hcall he hc s)

theorem Lexes.of_forall (h : ∀ r, known r = true → ∃ known' call', g.Lexes known' call' ∧
    known' r = true ∧ call' r = call r) : g.Lexes known call := by
  constructor
  · intro r hr
    obtain ⟨known', call', hcall, hr', heq⟩ := h r hr
    rw [← heq]
    exact hcall.reads r hr'
  · intro r hr
    obtain ⟨known', call', hcall, hr', heq⟩ := h r hr
    rw [← heq]
    exact hcall.pos r hr'
  · intro r hr
    obtain ⟨known', call', hcall, hr', heq⟩ := h r hr
    rw [← heq]
    exact hcall.le r hr'

/-- A silent rule over a lexical expression that reads something becomes a known rule. -/
theorem Lexes.silent [DecidableEq R] {r : R} (hcall : g.Lexes known call)
    (hr : g.rule r = ⟨.silent, e⟩) (he : e.isLexical known = true)
    (hpos : e.consumes known = true) : g.Lexes (· == r) fun _ => e.lex call where
  reads r' h' c s hc := by
    obtain rfl : r' = r := eq_of_beq h'
    exact .silent hr (Expr.reads_lex hcall he hc s)
  pos _ _ _ _ h := Expr.lex_pos hcall hpos h
  le _ _ _ _ h := Expr.lex_le hcall he h

/-- Where nodes are kept, an atomic rule over a lexical expression leaves one token. -/
theorem reads_atomic {r : R} (hcall : g.Lexes known call) (hr : g.rule r = ⟨.atomic, e⟩)
    (he : e.isLexical known = true) (hc : c.keepsNodes = true) (s : State R) :
    g.Reads (.rule r) c s ((e.lex call s.rest).map (s.token r)) := by
  have hbody := Expr.reads_lex hcall he (b := RuleKind.atomic.spaced) (c := RuleKind.atomic.inner c)
    nofun { s with nodes := [] }
  refine (reads_named hr nofun).mpr ⟨_, hbody, ?_⟩
  rw [Option.map_map]
  congr 1
  funext n
  simp [State.close, State.token, State.jump, State.advance, RuleKind.keeps, hc]

theorem reads_atomic_some {r : R} (hcall : g.Lexes known call) (hr : g.rule r = ⟨.atomic, e⟩)
    (he : e.isLexical known = true) (hc : c.keepsNodes = true) {s s' : State R} :
    g.Reads (.rule r) c s (some s') ↔
      ∃ w, s.rest = w ++ s'.rest ∧ e.Takes call w s'.rest ∧ s' = s.token r w.length :=
  Reads.iff_takes hcall he (fun _ => rfl) (reads_atomic hcall hr he hc s)

theorem reads_atomic_none {r : R} (hcall : g.Lexes known call) (hr : g.rule r = ⟨.atomic, e⟩)
    (he : e.isLexical known = true) (hc : c.keepsNodes = true) {s : State R} :
    g.Reads (.rule r) c s none ↔ e.lex call s.rest = none :=
  Reads.none_iff_lex (reads_atomic hcall hr he hc s)

end Grammar

end ConcreteSyntax
