import ConcreteSyntax.Proofs.Grammar.Nodes

/-! # Grammars read as regular expressions

`g.Derives tag e w` says that `w` is a word of the expression `e`, read as a regular expression over symbols:
rules that leave a node, and characters.  Silent rules are replaced by what they stand for, a lookahead
stands for the empty word, and choice is not ordered.

With the tag `none` the operations on marks stand for the empty word; whether a pushed expression is then
read as itself or left out makes no difference where it is empty.  With a tag they are read as text: the
expression that is pushed reads as the tag, and so does what pops it.

* **Texts.**  Where no trivia is matched, the text that a reading moves over is a word of what was read
  (`Grammar.Spelled.reads`).
* **Nodes.**  Where nodes are kept, the rules of the nodes that a reading leaves form such a word, once
  trivia is left out (`Grammar.Layered.names`).

In a grammar of layers (`Grammar.Layered`) the one holds of all terminals and the other of all
productions that a parse leaves. -/

namespace ConcreteSyntax

variable {R : Type}

/-- What words are made of: rules that leave a node, and characters. -/
inductive Symbol (R : Type) where
  | rule (r : R)
  | char (ch : Char)
deriving DecidableEq, Repr

/-- The words of an expression. -/
inductive Grammar.Derives (g : Grammar R) (tag : Option (List Char)) : Expr R → List (Symbol R) → Prop
  | word {w} : Derives g tag (.word w) (w.map .char)
  | caseless {w u : List Char} : u.map Char.toLower = w.map Char.toLower → Derives g tag (.caseless w) (u.map .char)
  | char {k ch} : k.mem ch = true → Derives g tag (.char k) [.char ch]
  | startOfInput : Derives g tag .startOfInput []
  | endOfInput : Derives g tag .endOfInput []
  | upTo {stops} {u : List Char} : Derives g tag (.upTo stops) (u.map .char)
  | silent {r w} : (g.rule r).kind = .silent → Derives g tag (g.rule r).body w →
      Derives g tag (.ref r) w
  | rule {r} : (g.rule r).kind ≠ .silent → Derives g tag (.ref r) [.rule r]
  | cat {e₁ e₂ u v} : Derives g tag e₁ u → Derives g tag e₂ v → Derives g tag (.cat e₁ e₂) (u ++ v)
  | group {e w} : Derives g tag e w → Derives g tag (.group e) w
  | alt_left {e₁ e₂ w} : Derives g tag e₁ w → Derives g tag (.alt e₁ e₂) w
  | alt_right {e₁ e₂ w} : Derives g tag e₂ w → Derives g tag (.alt e₁ e₂) w
  | opt_none {e} : Derives g tag (.opt e) []
  | opt_some {e w} : Derives g tag e w → Derives g tag (.opt e) w
  | star_nil {e} : Derives g tag (.star e) []
  | star_cons {e u v} : Derives g tag e u → Derives g tag (.star e) v → Derives g tag (.star e) (u ++ v)
  | ahead {e} : Derives g tag (.ahead e) []
  | notAhead {e} : Derives g tag (.notAhead e) []
  | mark_none {e} : tag = none → Derives g tag (.mark e) []
  | mark {e w} : Derives g tag e w → (∀ t, tag = some t → w = t.map .char) → Derives g tag (.mark e) w
  | peek : Derives g tag .peek []
  | pop : Derives g tag .pop ((tag.getD []).map .char)
  | drop : Derives g tag .drop []

/-- What a grammar derives, another one derives too that has the same kinds of rules and whose silent rules
have no fewer words. -/
theorem Grammar.Derives.of_rules {g g' : Grammar R} {tag : Option (List Char)} {e : Expr R}
    {w : List (Symbol R)} (hkind : ∀ r, (g'.rule r).kind = (g.rule r).kind)
    (hbody : ∀ r w, g'.Derives tag (g.rule r).body w → g'.Derives tag (g'.rule r).body w)
    (h : g.Derives tag e w) : g'.Derives tag e w := by
  induction h with
  | word => exact .word
  | caseless h => exact .caseless h
  | char h => exact .char h
  | startOfInput => exact .startOfInput
  | endOfInput => exact .endOfInput
  | upTo => exact .upTo
  | @silent r w hr _ ih => exact .silent ((hkind r).trans hr) (hbody r w ih)
  | @rule r hr => exact .rule (by rw [hkind r]; exact hr)
  | cat _ _ ih₁ ih₂ => exact .cat ih₁ ih₂
  | group _ ih => exact .group ih
  | alt_left _ ih => exact .alt_left ih
  | alt_right _ ih => exact .alt_right ih
  | opt_none => exact .opt_none
  | opt_some _ ih => exact .opt_some ih
  | star_nil => exact .star_nil
  | star_cons _ _ ih₁ ih₂ => exact .star_cons ih₁ ih₂
  | ahead => exact .ahead
  | notAhead => exact .notAhead
  | mark_none h => exact .mark_none h
  | mark _ h ih => exact .mark ih h
  | peek => exact .peek
  | pop => exact .pop
  | drop => exact .drop

/-! ### Texts -/

namespace Expr

/-- Whether an expression reads characters itself or through known rules and leaves the marks alone,
lookaheads left aside; it may compare the input with a mark if `peeks` says so. -/
def spells (peeks : Bool) (known : R → Bool) : Expr R → Bool
  | .word _ | .caseless _ | .char _ | .startOfInput | .endOfInput | .upTo _ => true
  | .ahead _ | .notAhead _ => true
  | .ref r => known r
  | .cat e₁ e₂ | .alt e₁ e₂ => e₁.spells peeks known && e₂.spells peeks known
  | .group e | .opt e | .star e => e.spells peeks known
  | .peek => peeks
  | .mark _ | .pop | .drop => false

end Expr

/-- Whether a task reads characters itself or through known rules. -/
def Task.spells (peeks : Bool) (known : R → Bool) : Task R → Bool
  | .part _ e | .rounds _ e => e.spells peeks known
  | .rule r => known r
  | .gap _ => true

/-- The known rules are silent and read characters themselves or through known rules. -/
def Grammar.Spelled (g : Grammar R) (peeks : Bool) (known : R → Bool) : Prop :=
  ∀ r, known r = true → (g.rule r).kind = .silent ∧ (g.rule r).body.spells peeks known = true

/-- The text is a word of the task. -/
def Grammar.Spells (g : Grammar R) (tag : Option (List Char)) : Task R → List Char → Prop
  | .part _ e, w => g.Derives tag e (w.map .char)
  | .rule r, w => g.Derives tag (.ref r) (w.map .char)
  | .gap _, w => w = []
  | .rounds _ e, w => g.Derives tag (.star e) (w.map .char)

/-- Between two states a text was read, and the marks are the same. -/
structure State.Reads (s s' : State R) (w : List Char) : Prop where
  rest : s.rest = w ++ s'.rest
  pos : s'.pos = s.pos + w.length
  marks : s'.marks = s.marks

namespace State

theorem Reads.refl (s : State R) : s.Reads s [] := ⟨rfl, rfl, rfl⟩

theorem Reads.trans {s₁ s₂ s₃ : State R} {u v : List Char} (h : s₁.Reads s₂ u) (h' : s₂.Reads s₃ v) :
    s₁.Reads s₃ (u ++ v) := by
  refine ⟨by rw [h.rest, h'.rest, List.append_assoc], ?_, h'.marks.trans h.marks⟩
  rw [h'.pos, h.pos, List.length_append, Nat.add_assoc]

end State

section Texts

variable {g : Grammar R} {peeks : Bool} {known : R → Bool} {c : Context}

theorem Expr.LeafReads.derives {tag : Option (List Char)} {e : Expr R} {s : State R} {w : List Char}
    {ms : List (List Char)} (h : e.LeafReads s w ms) (he : e.spells peeks known = true)
    (hs : peeks = true → ∀ w ∈ s.marks, w = []) : ms = s.marks ∧ g.Derives tag e (w.map .char) := by
  cases h with
  | word => exact ⟨rfl, .word⟩
  | caseless hu => exact ⟨rfl, .caseless hu⟩
  | char hk => exact ⟨rfl, .char hk⟩
  | startOfInput => exact ⟨rfl, .startOfInput⟩
  | endOfInput => exact ⟨rfl, .endOfInput⟩
  | upTo => exact ⟨rfl, .upTo⟩
  | peek hm =>
      -- the mark that is compared is empty
      obtain rfl := hs he _ (hm ▸ List.mem_cons_self)
      exact ⟨rfl, .peek⟩
  | pop | drop => cases he

/-- Where no trivia is matched, a reading moves over a word of its task. -/
theorem Grammar.Spelled.reads (hg : g.Spelled peeks known) (tag : Option (List Char)) {t : Task R}
    {s : State R} {o : Option (State R)} (h : g.Reads t c s o) : ∀ s', o = some s' →
      c.atomicity ≠ .free → t.spells peeks known = true → (peeks = true → ∀ w ∈ s.marks, w = []) →
      ∃ w, s.Reads s' w ∧ g.Spells tag t w := by
  induction h with
  | leaf h =>
      intro s' ho _ ht hs
      obtain ⟨w, ms, rest, hread, hrest, rfl⟩ := Expr.leafReads_of_leaf? (ho ▸ h)
      obtain ⟨hms, hw⟩ := hread.derives (g := g) ht hs
      exact ⟨w, ⟨hrest, rfl, hms⟩, hw⟩
  | ref _ ih => exact ih
  | group _ ih =>
      intro s' ho hc ht hs
      obtain ⟨w, hread, hw⟩ := ih s' ho hc ht hs
      exact ⟨w, hread, .group hw⟩
  | cat _ _ _ ih₁ ih₂ ih₃ =>
      intro s' ho hc ht hs
      obtain ⟨ht₁, ht₂⟩ := Bool.and_eq_true_iff.mp ht
      obtain ⟨w₁, hread₁, hw₁⟩ := ih₁ _ rfl hc ht₁ hs
      obtain ⟨_, hread₂, rfl⟩ := ih₂ _ rfl hc rfl (by rwa [hread₁.marks])
      obtain ⟨w₃, hread₃, hw₃⟩ := ih₃ s' ho hc ht₂ (by rwa [hread₂.marks, hread₁.marks])
      refine ⟨w₁ ++ w₃, hread₁.trans (hread₂.trans hread₃), ?_⟩
      have hcat := Derives.cat hw₁ hw₃
      rwa [← List.map_append] at hcat
  | alt_left _ ih =>
      intro s' ho hc ht hs
      obtain ⟨w, hread, hw⟩ := ih s' ho hc (Bool.and_eq_true_iff.mp ht).1 hs
      exact ⟨w, hread, .alt_left hw⟩
  | alt_right _ _ _ ih =>
      intro s' ho hc ht hs
      obtain ⟨w, hread, hw⟩ := ih s' ho hc (Bool.and_eq_true_iff.mp ht).2 hs
      exact ⟨w, hread, .alt_right hw⟩
  | opt_some _ ih =>
      intro s' ho hc ht hs
      obtain ⟨w, hread, hw⟩ := ih s' ho hc ht hs
      exact ⟨w, hread, .opt_some hw⟩
  | star_some _ _ ih₁ ih₂ =>
      intro s' ho hc ht hs
      obtain ⟨w₁, hread₁, hw₁⟩ := ih₁ _ rfl hc ht hs
      obtain ⟨w₂, hread₂, hw₂⟩ := ih₂ s' ho hc ht (by rwa [hread₁.marks])
      refine ⟨w₁ ++ w₂, hread₁.trans hread₂, ?_⟩
      have hstar := Derives.star_cons hw₁ hw₂
      rwa [← List.map_append] at hstar
  | round _ _ _ ih₁ ih₂ ih₃ =>
      intro s' ho hc ht hs
      obtain ⟨_, hread₁, rfl⟩ := ih₁ _ rfl hc rfl hs
      obtain ⟨w₂, hread₂, hw₂⟩ := ih₂ _ rfl hc ht (by rwa [hread₁.marks])
      obtain ⟨w₃, hread₃, hw₃⟩ := ih₃ s' ho hc ht (by rwa [hread₂.marks, hread₁.marks])
      refine ⟨w₂ ++ w₃, hread₁.trans (hread₂.trans hread₃), ?_⟩
      have hstar := Derives.star_cons hw₂ hw₃
      rwa [← List.map_append] at hstar
  | opt_none => intro s' ho _ _ _; cases ho; exact ⟨[], .refl _, .opt_none⟩
  | star_none => intro s' ho _ _ _; cases ho; exact ⟨[], .refl _, .star_nil⟩
  | rounds_end | rounds_gap => intro s' ho _ _ _; cases ho; exact ⟨[], .refl _, .star_nil⟩
  | ahead_some => intro s' ho _ _ _; cases ho; exact ⟨[], .refl _, .ahead⟩
  | notAhead_none => intro s' ho _ _ _; cases ho; exact ⟨[], .refl _, .notAhead⟩
  | gap_tight | gap_closed => intro s' ho _ _ _; cases ho; exact ⟨[], .refl _, rfl⟩
  | gap_free hf => intro s' _ hc; exact absurd hf hc
  | @silent r e _ _ _ hr _ ih =>
      intro s' ho hc ht hs
      obtain ⟨hkind, hbody⟩ := hg r ht
      rw [hr] at hbody
      obtain ⟨w, hread, hw⟩ := ih s' ho hc hbody hs
      refine ⟨w, hread, .silent hkind ?_⟩
      rw [hr]
      exact hw
  | @named_some r k e _ _ _ hr hk =>
      intro s' _ _ ht
      exact absurd (hg r ht).1 (by rw [hr]; exact hk)
  | mark_some => intro s' _ _ ht; cases ht
  | cat_left | cat_gap | ahead_none | notAhead_some | mark_none | named_none => nofun

end Texts

/-! ### Layers -/

/-- Whether a rule belongs to its layer.  Silent rules inside terminals read characters.  Terminals are
atomic and read characters, except for loose ones, about which nothing is said.  All other rules refer to
terminals and to each other. -/
def Grammar.sorts (g : Grammar R) (terminal lexical blank loose : R → Bool) (r : R) : Bool :=
  if lexical r then (g.rule r).kind = .silent && (g.rule r).body.spells true lexical
  else if terminal r then
    (g.rule r).kind ≠ .silent &&
      (loose r || ((g.rule r).kind = .atomic && (g.rule r).body.spells true lexical))
  else (g.rule r).kind ≠ .atomic && (g.rule r).body.refers true fun r => !lexical r && !blank r

/-- A grammar whose rules lie in layers, with terminals of their own for trivia. -/
structure Grammar.Layered (g : Grammar R) (v : Vocabulary R) (lexical blank loose : R → Bool) :
    Prop where
  trivia : g.trivia.refers false blank = true
  apart : ∀ r, blank r = true → lexical r = false ∧ v.isTerminal r = true
  sorts : ∀ r, g.sorts v.isTerminal lexical blank loose r = true

theorem Expr.refers_mono {stack stack' : Bool} {kept kept' : R → Bool}
    (hs : stack = true → stack' = true) (hk : ∀ r, kept r = true → kept' r = true) {e : Expr R}
    (he : e.refers stack kept = true) : e.refers stack' kept' = true := by
  induction e with
  | ref r => exact hk r he
  | cat e₁ e₂ ih₁ ih₂ | alt e₁ e₂ ih₁ ih₂ =>
      obtain ⟨he₁, he₂⟩ := Bool.and_eq_true_iff.mp he
      exact Bool.and_eq_true_iff.mpr ⟨ih₁ he₁, ih₂ he₂⟩
  | group e ih | opt e ih | star e ih => exact ih he
  | mark e =>
      obtain ⟨hstack, rfl⟩ := Expr.eq_of_refers_mark he
      exact hs hstack
  | drop => exact hs he
  | char | upTo | peek | pop => cases he
  | _ => exact he

namespace Grammar.Layered

variable {g : Grammar R} {v : Vocabulary R} {lexical blank loose : R → Bool} {r : R}

theorem spelled (hg : g.Layered v lexical blank loose) : g.Spelled true lexical := by
  intro r hr
  have h := hg.sorts r
  rw [Grammar.sorts, if_pos hr] at h
  simpa using h

theorem terminal (hg : g.Layered v lexical blank loose) (hl : lexical r = false)
    (hv : v.isTerminal r = true) : (g.rule r).kind ≠ .silent ∧ (loose r = false →
      (g.rule r).kind = .atomic ∧ (g.rule r).body.spells true lexical = true) := by
  have h := hg.sorts r
  rw [Grammar.sorts, if_neg (by rw [hl]; nofun), if_pos hv] at h
  simp only [Bool.and_eq_true, Bool.or_eq_true, decide_eq_true_eq] at h
  refine ⟨h.1, fun hloose => h.2.resolve_left ?_⟩
  rw [hloose]
  nofun

theorem production (hg : g.Layered v lexical blank loose) (hl : lexical r = false)
    (hv : v.isTerminal r = false) : (g.rule r).kind ≠ .atomic ∧
      (g.rule r).body.refers true (fun r => !lexical r && !blank r) = true := by
  have h := hg.sorts r
  rw [Grammar.sorts, if_neg (by rw [hl]; nofun), if_neg (by rw [hv]; nofun)] at h
  simpa using h

theorem not_terminal_of_silent (hg : g.Layered v lexical blank loose) (hl : lexical r = false)
    (hk : (g.rule r).kind = .silent) : v.isTerminal r = false := by
  cases hv : v.isTerminal r with
  | false => rfl
  | true => exact absurd hk (hg.terminal hl hv).1

/-- Terminals that are not loose are the atomic rules. -/
theorem not_terminal_of_kind (hg : g.Layered v lexical blank loose) (hl : lexical r = false)
    (hloose : loose r = false) (hk : (g.rule r).kind ≠ .atomic) : v.isTerminal r = false := by
  cases hv : v.isTerminal r with
  | false => rfl
  | true => exact absurd ((hg.terminal hl hv).2 hloose).1 hk

theorem terminal_of_atomic (hg : g.Layered v lexical blank loose) (hl : lexical r = false)
    (hk : (g.rule r).kind = .atomic) : v.isTerminal r = true := by
  cases hv : v.isTerminal r with
  | true => rfl
  | false => exact absurd hk (hg.production hl hv).1

theorem closed_blank (hg : g.Layered v lexical blank loose) : g.Closed false blank where
  trivia := hg.trivia
  silent r hr hk := by
    obtain ⟨hl, hv⟩ := hg.apart r hr
    exact absurd hk (hg.terminal hl hv).1

theorem closed (hg : g.Layered v lexical blank loose) : g.Closed true fun r => !lexical r where
  trivia := by
    refine Expr.refers_mono (fun h : false = true => nomatch h) (fun r hr => ?_) hg.trivia
    rw [(hg.apart r hr).1]
    rfl
  silent r hr hk := by
    have hl : lexical r = false := by simpa using hr
    refine Expr.refers_mono id (fun r hr => ?_) (hg.production hl (hg.not_terminal_of_silent hl hk)).2
    exact (Bool.and_eq_true_iff.mp hr).1

end Grammar.Layered

/-! ### Nodes -/

/-- The rules of the new nodes between two states, in the order of the source and without trivia. -/
def State.Adds (blank : R → Bool) (s s' : State R) (rs : List R) : Prop :=
  ∃ new, s'.nodes = new ++ s.nodes ∧ (new.reverse.map Match.rule).filter (fun r => !blank r) = rs

theorem State.Adds.of_eq {blank : R → Bool} {s s' : State R} (h : s'.nodes = s.nodes) :
    s.Adds blank s' [] := ⟨[], h, rfl⟩

theorem State.Adds.trans {blank : R → Bool} {s₁ s₂ s₃ : State R} {rs rs' : List R}
    (h : s₁.Adds blank s₂ rs) (h' : s₂.Adds blank s₃ rs') : s₁.Adds blank s₃ (rs ++ rs') := by
  obtain ⟨new, hn, rfl⟩ := h
  obtain ⟨new', hn', rfl⟩ := h'
  refine ⟨new' ++ new, by rw [hn', hn, List.append_assoc], ?_⟩
  rw [List.reverse_append, List.map_append, List.filter_append]

/-- The rules may be the nodes of the task, trivia left out. -/
def Grammar.Names (g : Grammar R) : Task R → List R → Prop
  | .part _ e, rs => g.Derives none e (rs.map .rule)
  | .rule r, rs => g.Derives none (.ref r) (rs.map .rule)
  | .gap _, rs => rs = []
  | .rounds _ e, rs => g.Derives none (.star e) (rs.map .rule)

theorem Expr.LeafReads.derives_nil {g : Grammar R} {stack : Bool} {kept : R → Bool} {e : Expr R}
    {s : State R} {w : List Char} {ms : List (List Char)} (h : e.LeafReads s w ms)
    (he : e.refers stack kept = true) : g.Derives none e [] := by
  cases h with
  | word =>
      obtain rfl := List.isEmpty_iff.mp he
      exact .word
  | caseless hu =>
      obtain rfl := List.isEmpty_iff.mp he
      exact .caseless (u := []) rfl
  | startOfInput => exact .startOfInput
  | endOfInput => exact .endOfInput
  | drop => exact .drop
  | char | upTo | peek | pop => cases he

section Names

variable {g : Grammar R} {v : Vocabulary R} {lexical blank loose : R → Bool} {c : Context}

/-- Between two parts stands trivia only. -/
theorem Grammar.Layered.adds_trivia (hg : g.Layered v lexical blank loose) {s s' : State R}
    (hc : c.keepsNodes = true) (h : g.Reads (.part false g.trivia) c s (some s')) :
    s.Adds blank s' [] := by
  obtain ⟨new, hn, hnew⟩ := hg.closed_blank.leaves (Q := fun _ => True) (fun _ _ _ => trivial) h s'
    rfl hc hg.trivia trivial
  refine ⟨new, hn, ?_⟩
  rw [List.filter_eq_nil_iff]
  intro r hr
  obtain ⟨m, hm, rfl⟩ := List.mem_map.mp hr
  simp [(hnew m (List.mem_reverse.mp hm)).1]

/-- Where nodes are kept, the rules of the new nodes form a word of what was read. -/
theorem Grammar.Layered.names (hg : g.Layered v lexical blank loose) {t : Task R} {s : State R}
    {o : Option (State R)} (h : g.Reads t c s o) : ∀ s', o = some s' → c.keepsNodes = true →
      t.refers true (fun r => !lexical r && !blank r) = true →
      ∃ rs, s.Adds blank s' rs ∧ g.Names t rs := by
  induction h with
  | leaf h =>
      intro s' ho _ ht
      obtain ⟨w, ms, rest, hread, _, rfl⟩ := Expr.leafReads_of_leaf? (ho ▸ h)
      exact ⟨[], .of_eq rfl, hread.derives_nil ht⟩
  | ref _ ih => exact ih
  | group _ ih =>
      intro s' ho hc ht
      obtain ⟨rs, hadds, hrs⟩ := ih s' ho hc ht
      exact ⟨rs, hadds, .group hrs⟩
  | cat _ _ _ ih₁ ih₂ ih₃ =>
      intro s' ho hc ht
      obtain ⟨ht₁, ht₂⟩ := Bool.and_eq_true_iff.mp ht
      obtain ⟨rs₁, hadds₁, hrs₁⟩ := ih₁ _ rfl hc ht₁
      obtain ⟨_, hadds₂, rfl⟩ := ih₂ _ rfl hc rfl
      obtain ⟨rs₃, hadds₃, hrs₃⟩ := ih₃ s' ho hc ht₂
      refine ⟨rs₁ ++ rs₃, hadds₁.trans (hadds₂.trans hadds₃), ?_⟩
      have hcat := Derives.cat hrs₁ hrs₃
      rwa [← List.map_append] at hcat
  | alt_left _ ih =>
      intro s' ho hc ht
      obtain ⟨rs, hadds, hrs⟩ := ih s' ho hc (Bool.and_eq_true_iff.mp ht).1
      exact ⟨rs, hadds, .alt_left hrs⟩
  | alt_right _ _ _ ih =>
      intro s' ho hc ht
      obtain ⟨rs, hadds, hrs⟩ := ih s' ho hc (Bool.and_eq_true_iff.mp ht).2
      exact ⟨rs, hadds, .alt_right hrs⟩
  | opt_some _ ih =>
      intro s' ho hc ht
      obtain ⟨rs, hadds, hrs⟩ := ih s' ho hc ht
      exact ⟨rs, hadds, .opt_some hrs⟩
  | star_some _ _ ih₁ ih₂ =>
      intro s' ho hc ht
      obtain ⟨rs₁, hadds₁, hrs₁⟩ := ih₁ _ rfl hc ht
      obtain ⟨rs₂, hadds₂, hrs₂⟩ := ih₂ s' ho hc ht
      refine ⟨rs₁ ++ rs₂, hadds₁.trans hadds₂, ?_⟩
      have hstar := Derives.star_cons hrs₁ hrs₂
      rwa [← List.map_append] at hstar
  | round _ _ _ ih₁ ih₂ ih₃ =>
      intro s' ho hc ht
      obtain ⟨_, hadds₁, rfl⟩ := ih₁ _ rfl hc rfl
      obtain ⟨rs₂, hadds₂, hrs₂⟩ := ih₂ _ rfl hc ht
      obtain ⟨rs₃, hadds₃, hrs₃⟩ := ih₃ s' ho hc ht
      refine ⟨rs₂ ++ rs₃, hadds₁.trans (hadds₂.trans hadds₃), ?_⟩
      have hstar := Derives.star_cons hrs₂ hrs₃
      rwa [← List.map_append] at hstar
  | opt_none => intro s' ho _ _; cases ho; exact ⟨[], .of_eq rfl, .opt_none⟩
  | star_none => intro s' ho _ _; cases ho; exact ⟨[], .of_eq rfl, .star_nil⟩
  | rounds_end | rounds_gap => intro s' ho _ _; cases ho; exact ⟨[], .of_eq rfl, .star_nil⟩
  | ahead_some => intro s' ho _ _; cases ho; exact ⟨[], .of_eq rfl, .ahead⟩
  | notAhead_none => intro s' ho _ _; cases ho; exact ⟨[], .of_eq rfl, .notAhead⟩
  | mark_some _ ih =>
      intro s' ho hc ht
      cases ho
      obtain ⟨_, rfl⟩ := Expr.eq_of_refers_mark ht
      obtain ⟨rs, ⟨new, hn, hnew⟩, hrs⟩ := ih _ rfl hc rfl
      exact ⟨rs, ⟨new, hn, hnew⟩, .mark hrs fun t ht => by cases ht⟩
  | gap_tight | gap_closed => intro s' ho _ _; cases ho; exact ⟨[], .of_eq rfl, rfl⟩
  | gap_free _ h _ =>
      intro s' ho hc _
      subst ho
      exact ⟨[], hg.adds_trivia hc h, rfl⟩
  | @silent r e _ _ _ hr _ ih =>
      intro s' ho hc ht
      have hkind : (g.rule r).kind = .silent := by rw [hr]
      obtain ⟨hl, _⟩ : lexical r = false ∧ blank r = false := by simpa [Task.refers] using ht
      have hbody := (hg.production hl (hg.not_terminal_of_silent hl hkind)).2
      rw [hr] at hbody
      obtain ⟨rs, hadds, hrs⟩ := ih s' ho hc hbody
      refine ⟨rs, hadds, .silent hkind ?_⟩
      rw [hr]
      exact hrs
  | @named_some r k e c s s₁ hr hk _ _ =>
      intro s' ho hc ht
      cases ho
      rw [RuleKind.keeps_of_keepsNodes hc]
      refine ⟨[r], ⟨[.node r s.pos s₁.pos s₁.nodes.reverse], rfl, ?_⟩, .rule (by rw [hr]; exact hk)⟩
      obtain ⟨_, hb⟩ : lexical r = false ∧ blank r = false := by simpa [Task.refers] using ht
      simp [Match.rule, hb]
  | cat_left | cat_gap | ahead_none | notAhead_some | mark_none | named_none =>
      intro s' ho
      cases ho

end Names

/-! ### Matches -/

/-- A state of a source where all marks are empty. -/
def State.Unmarked (source : List Char) (s : State R) : Prop := s.In source ∧ ∀ w ∈ s.marks, w = []

theorem State.In.text_eq {source w : List Char} {s s' : State R} (hs : s.In source)
    (hrest : s.rest = w ++ s'.rest) (hpos : s'.pos = s.pos + w.length) :
    (source.drop s.pos).take (s'.pos - s.pos) = w := by
  unfold State.In at hs
  rw [← hs, hrest, hpos, Nat.add_sub_cancel_left, List.take_left]

section Matches

variable {g : Grammar R} {v : Vocabulary R} {lexical blank loose : R → Bool} {known : R → Shift}
  {source : List Char} {m : Match R}

theorem Grammar.Layered.keeps_unmarked (hg : g.Layered v lexical blank loose) (hk : g.Shifts known) :
    g.Keeps true (fun r => !lexical r) (State.Unmarked source) := by
  intro t c s s' ht h hs
  exact ⟨hs.1.advances (h.advances s' rfl), hk.marks_empty hg.closed h s' rfl ht hs.2⟩

theorem Grammar.Layered.left_parts (hg : g.Layered v lexical blank loose) (hk : g.Shifts known)
    (hm : m.Left g (State.Unmarked source)) (hl : lexical m.rule = false)
    (hv : v.isTerminal m.rule = false) :
    ∀ m' ∈ m.parts, lexical m'.rule = false ∧ m'.Left g (State.Unmarked source) := by
  obtain ⟨hkind, hbody⟩ := hg.production hl hv
  have hrefers : (g.rule m.rule).body.refers true (fun r => !lexical r) = true :=
    Expr.refers_mono id (fun r hr => (Bool.and_eq_true_iff.mp hr).1) hbody
  intro m' hm'
  have hleft := hm.parts hg.closed (hg.keeps_unmarked hk) (fun _ h => h) hkind hrefers m' hm'
  exact ⟨by simpa using hleft.1, hleft.2⟩

theorem Grammar.Layered.adds_ref (hg : g.Layered v lexical blank loose) {b : Bool} {r : R}
    {c : Context} {s s' : State R} (hr : lexical r = false ∧ blank r = false)
    (hk : (g.rule r).kind ≠ .silent) (hc : c.keepsNodes = true)
    (h : g.Reads (.part b (.ref r)) c s (some s')) : s.Adds blank s' [r] := by
  obtain ⟨rs, hadds, hrs⟩ := hg.names h s' rfl hc (by simp [Task.refers, Expr.refers, hr])
  rw [Grammar.Names] at hrs
  generalize hw : rs.map Symbol.rule = w at hrs
  cases hrs with
  | silent hs => exact absurd hs hk
  | rule =>
      obtain rfl : rs = [r] := by
        cases rs with
        | nil => cases hw
        | cons r' rs =>
            cases rs with
            | nil => cases hw; rfl
            | cons => cases hw
      exact hadds

/-- The rules of the parts of a production form a word of its rule. -/
theorem Grammar.Layered.derives_parts (hg : g.Layered v lexical blank loose) {Q : State R → Prop}
    (hm : m.Left g Q) (hl : lexical m.rule = false) (hv : v.isTerminal m.rule = false) :
    g.Derives none (g.rule m.rule).body
      (((m.parts.map Match.rule).filter fun r => !blank r).map .rule) := by
  obtain ⟨hr, _, hc, _, h⟩ := hm
  obtain ⟨hkind, hbody⟩ := hg.production hl hv
  simp only [Match.rule, Match.parts] at *
  rw [hr] at hkind hbody ⊢
  obtain ⟨rs, ⟨new, hn, hnew⟩, hrs⟩ := hg.names h _ rfl (RuleKind.inner_keepsNodes hkind hc) hbody
  rw [List.append_nil] at hn
  rw [hn, hnew]
  exact hrs

theorem Grammar.Layered.text_of_reads (hg : g.Layered v lexical blank loose) {r : R} {c : Context}
    {s s' : State R} (hl : lexical r = false) (hv : v.isTerminal r = true) (hloose : loose r = false)
    (hs : ∀ w ∈ s.marks, w = []) (h : g.Reads (.rule r) c s (some s')) (tag : Option (List Char)) :
    ∃ w, s.rest = w ++ s'.rest ∧ g.Derives tag (g.rule r).body (w.map .char) := by
  obtain ⟨hkind, hbody⟩ := (hg.terminal hl hv).2 hloose
  have hrule : g.rule r = ⟨.atomic, (g.rule r).body⟩ := by rw [← hkind]
  obtain ⟨o, hread, ho⟩ := (reads_named hrule nofun).mp h
  obtain ⟨s₁, rfl, rfl⟩ := Option.map_eq_some_iff.mp ho.symm
  obtain ⟨w, hw, hword⟩ := hg.spelled.reads tag hread s₁ rfl nofun hbody fun _ => hs
  exact ⟨w, hw.rest, hword⟩

/-- The text of a terminal is a word of its rule. -/
theorem Grammar.Layered.derives_text (hg : g.Layered v lexical blank loose)
    (hm : m.Left g (State.Unmarked source)) (hl : lexical m.rule = false)
    (hv : v.isTerminal m.rule = true) (hloose : loose m.rule = false) (tag : Option (List Char)) :
    g.Derives tag (g.rule m.rule).body ((m.text source).map .char) := by
  obtain ⟨hr, _, hc, hs, h⟩ := hm
  obtain ⟨hkind, hbody⟩ := (hg.terminal hl hv).2 hloose
  simp only [Match.rule, Match.text] at *
  rw [hr] at hkind hbody ⊢
  obtain rfl : _ = RuleKind.atomic := hkind
  obtain ⟨w, hread, hw⟩ := hg.spelled.reads tag h _ rfl (fun ha => by cases ha) hbody fun _ => hs.2
  rw [hs.1.text_eq hread.rest hread.pos]
  exact hw

end Matches

end ConcreteSyntax
