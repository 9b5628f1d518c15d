import ConcreteSyntax.Proofs.Grammar.Coverage

/-! # The nodes of a reading

What a reading leaves behind, node by node, and what it does to the marks.

* **Leaves** (`Expr.LeafReads`).  What an expression reads that looks at the state only: its text and the
  marks after it (`Expr.leafReads_of_leaf?`).
* **Shifts** (`Shift`).  How many marks an expression takes away and how many it then adds.  `Grammar.Shifts`
  says of a whole grammar that every rule shifts the marks as a table says, and that a rule which leaves a
  node gives back the marks it found (`Grammar.Shifts.moves`).
* **Own readings** (`Match.Left`).  A match together with the reading of its rule that left it.  The nodes that
  a reading leaves all have one (`Grammar.Closed.leaves`), and so have their parts, one level after
  another.  So what is to be shown of every node of a parse is shown of one rule at a time. -/

namespace ConcreteSyntax

variable {R : Type}

/-! ### Leaves -/

/-- Started in a state, an expression that looks at the state only reads a text and leaves some marks. -/
inductive Expr.LeafReads (s : State R) : Expr R → List Char → List (List Char) → Prop
  | word {w} : LeafReads s (.word w) w s.marks
  | caseless {w u} : u.map Char.toLower = w.map Char.toLower → LeafReads s (.caseless w) u s.marks
  | char {k ch} : k.mem ch = true → LeafReads s (.char k) [ch] s.marks
  | startOfInput : s.pos = 0 → LeafReads s .startOfInput [] s.marks
  | endOfInput : s.rest = [] → LeafReads s .endOfInput [] s.marks
  | upTo {stops u} : LeafReads s (.upTo stops) u s.marks
  | peek {w ms} : s.marks = w :: ms → LeafReads s .peek w s.marks
  | pop {w ms} : s.marks = w :: ms → LeafReads s .pop w ms
  | drop {w ms} : s.marks = w :: ms → LeafReads s .drop [] ms

theorem State.strip?_eq_some {s s' : State R} {w : List Char} (h : s.strip? w = some s') :
    ∃ rest, s.rest = w ++ rest ∧ s' = s.advance rest w.length := by
  unfold State.strip? at h
  obtain ⟨rest, hr, rfl⟩ := Option.map_eq_some_iff.mp h
  exact ⟨rest, stripWord_eq_some hr, rfl⟩

theorem stripCaseless_toLower {w cs rest : List Char} (h : stripCaseless w cs = some rest) :
    ∃ u, cs = u ++ rest ∧ u.map Char.toLower = w.map Char.toLower := by
  induction w generalizing cs with
  | nil => cases h; exact ⟨[], rfl, rfl⟩
  | cons a w ih =>
      cases cs with
      | nil => cases h
      | cons ch cs =>
          rw [stripCaseless] at h
          split at h
          next ha =>
            obtain ⟨u, rfl, hu⟩ := ih h
            exact ⟨ch :: u, rfl, by rw [List.map_cons, List.map_cons, hu, ha]⟩
          next => cases h

/-- Where an expression that looks at the state only matches, it moves over a text that it reads, and only
place and marks are changed. -/
theorem Expr.leafReads_of_leaf? {e : Expr R} {s s' : State R} (h : e.leaf? s = some (some s')) :
    ∃ w ms rest, e.LeafReads s w ms ∧ s.rest = w ++ rest ∧
      s' = { s with rest := rest, pos := s.pos + w.length, marks := ms } := by
  cases e with
  | word w =>
      obtain ⟨rest, hr, rfl⟩ := State.strip?_eq_some (Option.some.inj h)
      exact ⟨w, _, rest, .word, hr, rfl⟩
  | caseless w =>
      obtain ⟨rest, hr, rfl⟩ := Option.map_eq_some_iff.mp (Option.some.inj h)
      obtain ⟨u, hu, hlower⟩ := stripCaseless_toLower hr
      have hlen : w.length = u.length := by simpa using (congrArg List.length hlower).symm
      exact ⟨u, _, rest, .caseless hlower, hu, by rw [State.advance, hlen]⟩
  | char k =>
      rw [Expr.leaf?, Option.some.injEq] at h
      split at h
      next => cases h
      next ch rest hr =>
        split at h
        next hk => cases h; exact ⟨[ch], _, rest, .char hk, hr, rfl⟩
        next => cases h
  | startOfInput =>
      rw [Expr.leaf?, Option.some.injEq] at h
      split at h
      next hp => cases h; exact ⟨[], _, _, .startOfInput hp, rfl, rfl⟩
      next => cases h
  | endOfInput =>
      rw [Expr.leaf?, Option.some.injEq] at h
      split at h
      next he => cases h; exact ⟨[], _, _, .endOfInput (List.isEmpty_iff.mp he), rfl, rfl⟩
      next => cases h
  | upTo stops =>
      cases h
      obtain ⟨u, hu, hn⟩ := skipUpTo_spec stops s.rest 0
      exact ⟨u, _, _, .upTo, hu, by rw [State.advance, hn, Nat.zero_add]⟩
  | peek =>
      rw [Expr.leaf?, Option.some.injEq] at h
      split at h
      next => cases h
      next w ms hm =>
        obtain ⟨rest, hr, rfl⟩ := State.strip?_eq_some h
        exact ⟨w, _, rest, .peek hm, hr, rfl⟩
  | pop =>
      rw [Expr.leaf?, Option.some.injEq] at h
      split at h
      next => cases h
      next w ms hm =>
        obtain ⟨_, hs, rfl⟩ := Option.map_eq_some_iff.mp h
        obtain ⟨rest, hr, rfl⟩ := State.strip?_eq_some hs
        exact ⟨w, ms, rest, .pop hm, hr, rfl⟩
  | drop =>
      rw [Expr.leaf?, Option.some.injEq] at h
      split at h
      next => cases h
      next w ms hm => cases h; exact ⟨[], ms, _, .drop hm, rfl, rfl⟩
  | _ => cases h

/-! ### Marks -/

/-- A change of the marks: so many are taken away, then so many are added. -/
structure Shift where
  taken : Nat
  added : Nat
deriving DecidableEq, Repr

namespace Shift

/-- No change. -/
def still : Shift := ⟨0, 0⟩

/-- One change after another. -/
def comp (a b : Shift) : Shift := ⟨a.taken + (b.taken - a.added), b.added + (a.added - b.taken)⟩

/-- The change leads from some marks to others; what marks are added is left open. -/
def Moves (a : Shift) (ms ms' : List (List Char)) : Prop :=
  a.taken ≤ ms.length ∧ ∃ new, new.length = a.added ∧ ms' = new ++ ms.drop a.taken

theorem moves_still {ms ms' : List (List Char)} : still.Moves ms ms' ↔ ms' = ms := by
  constructor
  · rintro ⟨_, new, hnew, rfl⟩
    obtain rfl : new = [] := List.eq_nil_of_length_eq_zero hnew
    rfl
  · rintro rfl
    exact ⟨Nat.zero_le _, [], rfl, rfl⟩

theorem Moves.comp {a b : Shift} {ms₁ ms₂ ms₃ : List (List Char)} (ha : a.Moves ms₁ ms₂)
    (hb : b.Moves ms₂ ms₃) : (a.comp b).Moves ms₁ ms₃ := by
  obtain ⟨ht, new, hnew, rfl⟩ := ha
  obtain ⟨ht', new', hnew', rfl⟩ := hb
  rw [List.length_append, List.length_drop] at ht'
  refine ⟨?_, new' ++ new.drop b.taken, ?_, ?_⟩
  · simp only [Shift.comp]
    omega
  · simp only [Shift.comp, List.length_append, List.length_drop]
    omega
  · rw [List.drop_append, List.drop_drop, hnew, List.append_assoc]
    rfl

theorem moves_push (w : List Char) (ms : List (List Char)) : Moves ⟨0, 1⟩ ms (w :: ms) :=
  ⟨Nat.zero_le _, [w], rfl, rfl⟩

theorem moves_drop (w : List Char) (ms : List (List Char)) : Moves ⟨1, 0⟩ (w :: ms) ms :=
  ⟨Nat.succ_le_succ (Nat.zero_le _), [], rfl, rfl⟩

end Shift

namespace Expr

/-- How an expression shifts the marks, given how rules do; none if that depends on the input. -/
def shift? (known : R → Shift) : Expr R → Option Shift
  | .word _ | .caseless _ | .char _ | .startOfInput | .endOfInput | .upTo _ | .peek => some .still
  | .ahead _ | .notAhead _ => some .still
  | .ref r => some (known r)
  | .cat e₁ e₂ => (e₁.shift? known).bind fun a => (e₂.shift? known).map a.comp
  | .group e => e.shift? known
  | .alt e₁ e₂ => if e₁.shift? known = e₂.shift? known then e₁.shift? known else none
  | .opt e | .star e => if e.shift? known = some .still then some .still else none
  | .mark e => (e.shift? known).map (·.comp ⟨0, 1⟩)
  | .pop | .drop => some ⟨1, 0⟩

end Expr

/-- How a task shifts the marks. -/
def Task.shift? (known : R → Shift) : Task R → Option Shift
  | .part _ e => e.shift? known
  | .rule r => some (known r)
  | .gap _ => some .still
  | .rounds _ e => if e.shift? known = some .still then some .still else none

/-- Every rule shifts the marks as the table says; a rule that leaves a node does not shift them. -/
structure Grammar.Shifts (g : Grammar R) (known : R → Shift) : Prop where
  trivia : g.trivia.shift? known = some .still
  body : ∀ r, (g.rule r).body.shift? known = some (known r)
  named : ∀ r, (g.rule r).kind ≠ .silent → known r = .still

theorem Expr.leaf?_moves {known : R → Shift} {e : Expr R} {s s' : State R} {a : Shift}
    (h : e.leaf? s = some (some s')) (ha : e.shift? known = some a) : a.Moves s.marks s'.marks := by
  obtain ⟨w, ms, rest, hread, _, rfl⟩ := Expr.leafReads_of_leaf? h
  cases hread with
  | pop hm | drop hm =>
      cases ha
      rw [hm]
      exact Shift.moves_drop _ _
  | _ =>
      cases ha
      exact Shift.moves_still.mpr rfl

/-- A reading shifts the marks as its task says. -/
theorem Grammar.Shifts.moves {g : Grammar R} {known : R → Shift} (hg : g.Shifts known) {t : Task R}
    {c : Context} {s : State R} {o : Option (State R)} (h : g.Reads t c s o) :
    ∀ s' a, o = some s' → t.shift? known = some a → a.Moves s.marks s'.marks := by
  have hstill : ∀ {e : Expr R} {a : Shift},
      (if e.shift? known = some .still then some Shift.still else none) = some a →
      e.shift? known = some .still ∧ a = .still := by
    intro e a ha
    split at ha
    next he => cases ha; exact ⟨he, rfl⟩
    next => cases ha
  induction h with
  | leaf h => intro s' a ho ha; exact Expr.leaf?_moves (ho ▸ h) ha
  | ref _ ih | group _ ih => exact ih
  | cat _ _ _ ih₁ ih₂ ih₃ =>
      intro s' a ho ha
      obtain ⟨a₁, ha₁, ha⟩ := Option.bind_eq_some_iff.mp ha
      obtain ⟨a₂, ha₂, rfl⟩ := Option.map_eq_some_iff.mp ha
      have hgap := Shift.moves_still.mp (ih₂ _ _ rfl rfl)
      have hright := ih₃ s' a₂ ho ha₂
      rw [hgap] at hright
      exact (ih₁ _ a₁ rfl ha₁).comp hright
  | alt_left _ ih =>
      intro s' a ho ha
      simp only [Task.shift?, Expr.shift?] at ha
      split at ha
      · exact ih s' a ho ha
      · cases ha
  | alt_right _ _ _ ih =>
      intro s' a ho ha
      simp only [Task.shift?, Expr.shift?] at ha
      split at ha
      next he => rw [he] at ha; exact ih s' a ho ha
      next => cases ha
  | opt_some _ ih =>
      intro s' a ho ha
      obtain ⟨he, rfl⟩ := hstill ha
      exact ih s' _ ho he
  | star_some _ _ ih₁ ih₂ =>
      intro s' a ho ha
      obtain ⟨he, rfl⟩ := hstill ha
      have hfirst := Shift.moves_still.mp (ih₁ _ _ rfl he)
      have hrest := ih₂ s' _ ho ha
      rwa [hfirst] at hrest
  | round _ _ _ ih₁ ih₂ ih₃ =>
      intro s' a ho ha
      obtain ⟨he, rfl⟩ := hstill ha
      have hgap := Shift.moves_still.mp (ih₁ _ _ rfl rfl)
      have hround := Shift.moves_still.mp (ih₂ _ _ rfl he)
      have hrest := ih₃ s' _ ho ha
      rwa [hround, hgap] at hrest
  | opt_none | star_none | rounds_end | rounds_gap =>
      intro s' a ho ha
      cases ho
      obtain ⟨_, rfl⟩ := hstill ha
      exact Shift.moves_still.mpr rfl
  | ahead_some | notAhead_none | gap_tight | gap_closed =>
      intro s' a ho ha
      cases ho
      cases ha
      exact Shift.moves_still.mpr rfl
  | mark_some _ ih =>
      intro s' a ho ha
      cases ho
      obtain ⟨a', ha', rfl⟩ := Option.map_eq_some_iff.mp ha
      exact (ih _ a' rfl ha').comp (Shift.moves_push _ _)
  | gap_free _ _ ih =>
      intro s' a ho ha
      cases ha
      exact ih s' _ ho hg.trivia
  | @silent r e _ _ _ hr _ ih =>
      intro s' a ho ha
      have hb := hg.body r
      rw [hr] at hb
      cases ha
      exact ih s' _ ho hb
  | @named_some r k e c s s₁ hr hk _ ih =>
      intro s' a ho ha
      cases ho
      cases ha
      have hb := hg.body r
      have hn := hg.named r (by rw [hr]; exact hk)
      rw [hr, hn] at hb
      rw [hn]
      exact ih s₁ _ rfl hb
  | cat_left | cat_gap | ahead_none | notAhead_some | mark_none | named_none => nofun

theorem Grammar.Shifts.marks_eq {g : Grammar R} {known : R → Shift} (hg : g.Shifts known)
    {t : Task R} {c : Context} {s s' : State R} (h : g.Reads t c s (some s'))
    (ht : t.shift? known = some .still) : s'.marks = s.marks :=
  Shift.moves_still.mp (hg.moves h s' _ rfl ht)

/-! ### Places -/

/-- The state stands in a source where its offset says. -/
def State.In (source : List Char) (s : State R) : Prop := s.rest = source.drop s.pos

theorem State.In.advances {source : List Char} {s s' : State R} (hs : s.In source)
    (h : s.Advances s') : s'.In source := by
  obtain ⟨w, hw, hp⟩ := h
  unfold State.In at hs ⊢
  rw [hp, ← List.drop_drop, ← hs, hw, List.drop_left]

/-- A reading puts its nodes on top of those before it. -/
theorem Grammar.Reads.nodes_extend {g : Grammar R} {t : Task R} {c : Context} {s : State R}
    {o : Option (State R)} (h : g.Reads t c s o) : ∀ s', o = some s' → ∃ new, s'.nodes = new ++ s.nodes := by
  induction h with
  | leaf h =>
      intro s' ho
      obtain ⟨w, ms, rest, _, _, rfl⟩ := Expr.leafReads_of_leaf? (ho ▸ h)
      exact ⟨[], rfl⟩
  | ref _ ih | group _ ih | alt_left _ ih | alt_right _ _ _ ih | opt_some _ ih => exact ih
  | gap_free _ _ ih | silent _ _ ih => exact ih
  | cat _ _ _ ih₁ ih₂ ih₃ | round _ _ _ ih₁ ih₂ ih₃ =>
      intro s' ho
      obtain ⟨new₁, h₁⟩ := ih₁ _ rfl
      obtain ⟨new₂, h₂⟩ := ih₂ _ rfl
      obtain ⟨new₃, h₃⟩ := ih₃ s' ho
      exact ⟨new₃ ++ (new₂ ++ new₁), by rw [h₃, h₂, h₁]; simp only [List.append_assoc]⟩
  | star_some _ _ ih₁ ih₂ =>
      intro s' ho
      obtain ⟨new₁, h₁⟩ := ih₁ _ rfl
      obtain ⟨new₂, h₂⟩ := ih₂ s' ho
      exact ⟨new₂ ++ new₁, by rw [h₂, h₁, List.append_assoc]⟩
  | mark_some _ ih =>
      intro s' ho
      cases ho
      obtain ⟨new, hn⟩ := ih _ rfl
      exact ⟨new, hn⟩
  | @named_some r k e c s s₁ _ _ _ _ =>
      intro s' ho
      cases ho
      unfold State.close
      split
      · exact ⟨[_], rfl⟩
      · exact ⟨s₁.nodes, rfl⟩
  | cat_left | cat_gap | ahead_none | notAhead_some | mark_none | named_none => nofun
  | _ => intro s' ho; cases ho; exact ⟨[], rfl⟩

/-! ### Own readings -/

namespace Match

def rule : Match R → R
  | node r _ _ _ => r

/-- What was matched inside. -/
def parts : Match R → List (Match R)
  | node _ _ _ ms => ms

def text (source : List Char) : Match R → List Char
  | node _ start stop _ => (source.drop start).take (stop - start)

/-- The match is what its rule left when it was read from some state with a property. -/
inductive Left (g : Grammar R) (Q : State R → Prop) : Match R → Prop
  | mk {r : R} {k : RuleKind} {e : Expr R} {c : Context} {s s' : State R} :
      g.rule r = ⟨k, e⟩ → k ≠ .silent → c.keepsNodes = true → Q s →
      g.Reads (.part k.spaced e) (k.inner c) { s with nodes := [] } (some s') →
      Left g Q (.node r s.pos s'.pos s'.nodes.reverse)

end Match

theorem RuleKind.keeps_of_keepsNodes {k : RuleKind} {c : Context} (hc : c.keepsNodes = true) :
    k.keeps c = true := by
  cases k with
  | compound =>
      simp only [Context.keepsNodes, Bool.and_eq_true] at hc
      simp [RuleKind.keeps, Context.keepsNodes, hc.1]
  | _ => exact hc

theorem RuleKind.inner_keepsNodes {k : RuleKind} {c : Context} (hk : k ≠ .atomic)
    (hc : c.keepsNodes = true) : (k.inner c).keepsNodes = true := by
  cases k with
  | atomic => exact absurd rfl hk
  | compound =>
      simp only [Context.keepsNodes, Bool.and_eq_true, decide_eq_true_eq] at hc
      simp [RuleKind.inner, Context.keepsNodes, hc.1]
  | _ => exact hc

/-! ### References -/

/-- Whether an expression reads characters only through rules of a set, lookaheads left aside.  Of the
marks it may drop one or push an empty one if `stack` says so, and else it leaves them alone. -/
def Expr.refers (stack : Bool) (kept : R → Bool) : Expr R → Bool
  | .word w | .caseless w => w.isEmpty
  | .char _ | .upTo _ | .peek | .pop => false
  | .startOfInput | .endOfInput | .ahead _ | .notAhead _ => true
  | .drop | .mark (.word []) => stack
  | .mark _ => false
  | .ref r => kept r
  | .cat e₁ e₂ | .alt e₁ e₂ => e₁.refers stack kept && e₂.refers stack kept
  | .group e | .opt e | .star e => e.refers stack kept

/-- Whether a task reads characters only through rules of a set. -/
def Task.refers (stack : Bool) (kept : R → Bool) : Task R → Bool
  | .part _ e | .rounds _ e => e.refers stack kept
  | .rule r => kept r
  | .gap _ => true

/-- Trivia and the silent rules of a set refer to rules of the set only. -/
structure Grammar.Closed (g : Grammar R) (stack : Bool) (kept : R → Bool) : Prop where
  trivia : g.trivia.refers stack kept = true
  silent : ∀ r, kept r = true → (g.rule r).kind = .silent → (g.rule r).body.refers stack kept = true

theorem Expr.eq_of_refers_mark {stack : Bool} {kept : R → Bool} {e : Expr R}
    (h : (Expr.mark e).refers stack kept = true) : stack = true ∧ e = .word [] := by
  cases e with
  | word w =>
      cases w with
      | nil => exact ⟨h, rfl⟩
      | cons => cases h
  | _ => cases h

theorem Expr.LeafReads.of_refers {stack : Bool} {kept : R → Bool} {e : Expr R} {s : State R}
    {w : List Char} {ms : List (List Char)} (h : e.LeafReads s w ms)
    (he : e.refers stack kept = true) : w = [] ∧ (ms = s.marks ∨ stack = true ∧ ∃ m, s.marks = m :: ms) := by
  cases h with
  | word => exact ⟨List.isEmpty_iff.mp he, .inl rfl⟩
  | caseless hu =>
      obtain rfl := List.isEmpty_iff.mp he
      exact ⟨List.map_eq_nil_iff.mp hu, .inl rfl⟩
  | char | upTo | peek | pop => cases he
  | startOfInput | endOfInput => exact ⟨rfl, .inl rfl⟩
  | drop hm => exact ⟨rfl, .inr ⟨he, _, hm⟩⟩

section References

variable {g : Grammar R} {known : R → Shift} {stack : Bool} {kept : R → Bool} {c : Context}

theorem Expr.shift?_of_refers (hkept : ∀ r, kept r = true → known r = .still) {e : Expr R}
    (he : e.refers false kept = true) : e.shift? known = some .still := by
  induction e with
  | ref r => exact congrArg some (hkept r he)
  | cat e₁ e₂ ih₁ ih₂ =>
      obtain ⟨he₁, he₂⟩ := Bool.and_eq_true_iff.mp he
      rw [Expr.shift?, ih₁ he₁, ih₂ he₂]
      rfl
  | alt e₁ e₂ ih₁ ih₂ =>
      obtain ⟨he₁, he₂⟩ := Bool.and_eq_true_iff.mp he
      simp [Expr.shift?, ih₁ he₁, ih₂ he₂]
  | group e ih => exact ih he
  | opt e ih | star e ih => simp [Expr.shift?, ih he]
  | mark e => exact absurd (Expr.eq_of_refers_mark he).1 nofun
  | pop | drop => cases he
  | _ => rfl

theorem Grammar.Shifts.marks_eq_of_refers (hg : g.Shifts known)
    (hkept : ∀ r, kept r = true → known r = .still) {t : Task R} {s s' : State R}
    (ht : t.refers false kept = true) (h : g.Reads t c s (some s')) : s'.marks = s.marks := by
  refine hg.marks_eq h ?_
  cases t with
  | part b e => exact Expr.shift?_of_refers hkept ht
  | rule r => exact congrArg some (hkept r ht)
  | gap b => rfl
  | rounds b e => exact if_pos (Expr.shift?_of_refers hkept ht)

/-- Outside terminals all marks are empty. -/
theorem Grammar.Shifts.marks_empty (hg : g.Shifts known) (hk : g.Closed stack kept) {t : Task R}
    {s : State R} {o : Option (State R)} (h : g.Reads t c s o) : ∀ s', o = some s' →
      t.refers stack kept = true → (∀ w ∈ s.marks, w = []) → ∀ w ∈ s'.marks, w = [] := by
  induction h with
  | leaf h =>
      intro s' ho ht hs
      obtain ⟨w, ms, rest, hread, _, rfl⟩ := Expr.leafReads_of_leaf? (ho ▸ h)
      rcases (hread.of_refers ht).2 with rfl | ⟨_, m, hm⟩
      · exact hs
      · intro w hw
        exact hs w (hm ▸ List.mem_cons_of_mem m hw)
  | ref _ ih | group _ ih => exact ih
  | cat _ _ _ ih₁ ih₂ ih₃ =>
      intro s' ho ht hs
      obtain ⟨ht₁, ht₂⟩ := Bool.and_eq_true_iff.mp ht
      exact ih₃ s' ho ht₂ (ih₂ _ rfl rfl (ih₁ _ rfl ht₁ hs))
  | round _ _ _ ih₁ ih₂ ih₃ =>
      intro s' ho ht hs
      exact ih₃ s' ho ht (ih₂ _ rfl ht (ih₁ _ rfl rfl hs))
  | alt_left _ ih => intro s' ho ht hs; exact ih s' ho (Bool.and_eq_true_iff.mp ht).1 hs
  | alt_right _ _ _ ih => intro s' ho ht hs; exact ih s' ho (Bool.and_eq_true_iff.mp ht).2 hs
  | opt_some _ ih => exact ih
  | star_some _ _ ih₁ ih₂ => intro s' ho ht hs; exact ih₂ s' ho ht (ih₁ _ rfl ht hs)
  | mark_some h ih =>
      intro s' ho ht hs
      cases ho
      obtain ⟨_, rfl⟩ := Expr.eq_of_refers_mark ht
      -- the text of an empty word is empty
      obtain rfl := Option.some.inj ((reads_leaf rfl).mp h)
      simpa [State.textTo, State.advance] using hs
  | gap_free _ _ ih => intro s' ho _ hs; exact ih s' ho hk.trivia hs
  | @silent r e _ _ _ hr _ ih =>
      intro s' ho ht hs
      have hb := hk.silent r ht (by rw [hr])
      rw [hr] at hb
      exact ih s' ho hb hs
  | @named_some r k e _ _ _ hr hn h _ =>
      intro s' ho _ hs
      cases ho
      have hstill : (Task.rule r).shift? known = some .still :=
        congrArg some (hg.named r (by rw [hr]; exact hn))
      rw [hg.marks_eq (.named_some hr hn h) hstill]
      exact hs
  | cat_left | cat_gap | ahead_none | notAhead_some | mark_none | named_none =>
      intro s' ho
      cases ho
  | _ => intro s' ho _ hs; cases ho; exact hs

/-- The property `Q` is kept by all that refers to the set. -/
def Grammar.Keeps (g : Grammar R) (stack : Bool) (kept : R → Bool) (Q : State R → Prop) : Prop :=
  ∀ {t : Task R} {c : Context} {s s' : State R}, t.refers stack kept = true →
    g.Reads t c s (some s') → Q s → Q s'

variable {Q : State R → Prop}

/-- The new nodes between two states are of the set, and each was left by its own rule. -/
def State.Leaves (g : Grammar R) (kept : R → Bool) (Q : State R → Prop) (s s' : State R) : Prop :=
  ∃ new, s'.nodes = new ++ s.nodes ∧ ∀ m ∈ new, kept m.rule = true ∧ m.Left g Q

theorem State.Leaves.of_eq {s s' : State R} (h : s'.nodes = s.nodes) : s.Leaves g kept Q s' :=
  ⟨[], h, nofun⟩

theorem State.Leaves.trans {s₁ s₂ s₃ : State R} (h : s₁.Leaves g kept Q s₂)
    (h' : s₂.Leaves g kept Q s₃) : s₁.Leaves g kept Q s₃ := by
  obtain ⟨new, hn, hl⟩ := h
  obtain ⟨new', hn', hl'⟩ := h'
  refine ⟨new' ++ new, by rw [hn', hn, List.append_assoc], ?_⟩
  intro m hm
  rcases List.mem_append.mp hm with hm | hm
  · exact hl' m hm
  · exact hl m hm

/-- Where nodes are kept, each node that a reading leaves has a reading of its own.  The induction stops at
rules that leave a node: what they left is this very reading. -/
theorem Grammar.Closed.leaves (hg : g.Closed stack kept) (hQ : g.Keeps stack kept Q) {t : Task R}
    {s : State R} {o : Option (State R)} (h : g.Reads t c s o) : ∀ s', o = some s' →
      c.keepsNodes = true → t.refers stack kept = true → Q s → s.Leaves g kept Q s' := by
  induction h with
  | leaf h =>
      intro s' ho _ _ _
      obtain ⟨w, ms, rest, _, _, rfl⟩ := Expr.leafReads_of_leaf? (ho ▸ h)
      exact .of_eq rfl
  | ref _ ih | group _ ih => exact ih
  | @cat b e₁ _ _ _ _ _ _ h₁ h₂ _ ih₁ ih₂ ih₃ =>
      intro s' ho hc ht hq
      obtain ⟨ht₁, ht₂⟩ := Bool.and_eq_true_iff.mp ht
      have hq₁ := hQ (t := .part b e₁) ht₁ h₁ hq
      have hq₂ := hQ rfl h₂ hq₁
      exact (ih₁ _ rfl hc ht₁ hq).trans ((ih₂ _ rfl hc rfl hq₁).trans (ih₃ s' ho hc ht₂ hq₂))
  | @round b e _ _ _ _ _ h₁ h₂ _ ih₁ ih₂ ih₃ =>
      intro s' ho hc ht hq
      have hq₁ := hQ rfl h₁ hq
      have hq₂ := hQ (t := .part b e) ht h₂ hq₁
      exact (ih₁ _ rfl hc rfl hq).trans ((ih₂ _ rfl hc ht hq₁).trans (ih₃ s' ho hc ht hq₂))
  | alt_left _ ih => intro s' ho hc ht hq; exact ih s' ho hc (Bool.and_eq_true_iff.mp ht).1 hq
  | alt_right _ _ _ ih => intro s' ho hc ht hq; exact ih s' ho hc (Bool.and_eq_true_iff.mp ht).2 hq
  | opt_some _ ih => exact ih
  | @star_some b e _ _ _ _ h₁ _ ih₁ ih₂ =>
      intro s' ho hc ht hq
      have hq₁ := hQ (t := .part b e) ht h₁ hq
      exact (ih₁ _ rfl hc ht hq).trans (ih₂ s' ho hc ht hq₁)
  | mark_some _ ih =>
      intro s' ho hc ht hq
      cases ho
      obtain ⟨_, rfl⟩ := Expr.eq_of_refers_mark ht
      obtain ⟨new, hn, hl⟩ := ih _ rfl hc rfl hq
      exact ⟨new, hn, hl⟩
  | gap_free _ _ ih => intro s' ho hc _ hq; exact ih s' ho hc hg.trivia hq
  | @silent r e _ _ _ hr _ ih =>
      intro s' ho hc ht hq
      have hb := hg.silent r ht (by rw [hr])
      rw [hr] at hb
      exact ih s' ho hc hb hq
  | @named_some r k e c s s₁ hr hk h _ =>
      intro s' ho hc ht hq
      cases ho
      rw [RuleKind.keeps_of_keepsNodes hc]
      refine ⟨[.node r s.pos s₁.pos s₁.nodes.reverse], rfl, ?_⟩
      intro m hm
      rw [List.mem_singleton] at hm
      subst hm
      exact ⟨ht, .mk hr hk hc hq h⟩
  | cat_left | cat_gap | ahead_none | notAhead_some | mark_none | named_none => nofun
  | _ => intro s' ho _ _ _; cases ho; exact .of_eq rfl

theorem Match.Left.imp {Q' : State R → Prop} (hQ : ∀ s, Q s → Q' s) {m : Match R} (hm : m.Left g Q) :
    m.Left g Q' := by
  obtain ⟨hr, hk, hc, hs, h⟩ := hm
  exact .mk hr hk hc (hQ _ hs) h

/-- The parts of a match were left by their own rules, if its rule refers to the set. -/
theorem Match.Left.parts (hg : g.Closed stack kept) (hQ : g.Keeps stack kept Q)
    (hnodes : ∀ s, Q s → Q { s with nodes := [] }) {m : Match R} (hm : m.Left g Q)
    (hk : (g.rule m.rule).kind ≠ .atomic) (hb : (g.rule m.rule).body.refers stack kept = true) :
    ∀ m' ∈ m.parts, kept m'.rule = true ∧ m'.Left g Q := by
  obtain ⟨hr, _, hc, hs, h⟩ := hm
  simp only [Match.rule, Match.parts] at *
  rw [hr] at hk hb
  obtain ⟨new, hn, hnew⟩ := hg.leaves hQ h _ rfl (RuleKind.inner_keepsNodes hk hc) hb (hnodes _ hs)
  intro m' hm'
  rw [hn, List.append_nil, List.mem_reverse] at hm'
  exact hnew m' hm'

end References

theorem Grammar.left_of_parse [DecidableEq R] {g : Grammar R} {Q : State R → Prop}
    {limit : Option Nat} {source : List Char} {m : Match R}
    (hk : (g.rule g.start).kind ≠ .silent) (hQ : Q (initialState source))
    (h : g.parse limit source = .ok [m]) : m.rule = g.start ∧ m.Left g Q := by
  obtain ⟨s, hs, hm⟩ := g.reads_of_parse h
  obtain ⟨o, hbody, ho⟩ := (reads_named (k := (g.rule g.start).kind) rfl hk).mp hs
  obtain ⟨s', rfl, rfl⟩ := Option.map_eq_some_iff.mp ho.symm
  rw [RuleKind.keeps_of_keepsNodes rfl] at hm
  obtain rfl : m = .node g.start 0 s'.pos s'.nodes.reverse := by
    simpa [State.close, initialState] using hm
  exact ⟨rfl, .mk (s := initialState source) rfl hk rfl hQ hbody⟩

end ConcreteSyntax
