import ConcreteSyntax.Proofs.Grammar.Progress
import ConcreteSyntax.Proofs.Json.Completeness
import ConcreteSyntax.Proofs.Rejections

/-! # A JSON source is rejected at its first defect

What stands before the place of a rejection is the beginning of a JSON text.

* **Beginnings** (`Json.Viable`).  A text that can be completed to a JSON text.  Behind some texts a part of a
  given kind may stand, with anything that completes it (`Json.Awaits`, `Json.Hosts`).
* **Tries** (`JsonRule.safe_document`).  A rejection is at a position that was tried.  A part is only entered where it
  may stand, and tokens are tried at their start alone.  So everything that was read before a position that is
  tried can be completed, also where the parse went back from it.
* **Completions** (`Grammar.Progresses.parseWithin_of_reads`).  What is completed is read, and what is read is
  parsed once enough rules may be open. -/

namespace ConcreteSyntax

/-! ### Beginnings of texts -/

namespace Json

/-- The text can be completed to a JSON text. -/
def Viable (p : List Char) : Prop := ∃ t, ∃ j : Json, j.IsText (p ++ t)

theorem Viable.of_append {p w : List Char} (h : Viable (p ++ w)) : Viable p := by
  obtain ⟨t, j, hj⟩ := h
  refine ⟨w ++ t, j, ?_⟩
  rw [← List.append_assoc]
  exact hj

section

variable {α : Type} {Q : α → List Char → Prop} {p b : List Char}

/-- Behind the text every part may stand. -/
def Awaits (Q : α → List Char → Prop) (p : List Char) : Prop := ∀ a w, Q a w → Viable (p ++ w)

/-- Behind the text every list of parts may stand, with blanks after it. -/
def Hosts (Q : α → List Char → Prop) (p : List Char) : Prop :=
  ∀ as m b, Items Q as m → Blank b → Viable (p ++ (m ++ b))

theorem viable_text {j : Json} {a w b : List Char} (ha : Blank a) (hw : j.Spells w) (hb : Blank b) :
    Viable (a ++ (w ++ b)) := by
  refine ⟨[], j, a, w, b, ha, hw, hb, ?_⟩
  rw [List.append_nil]

theorem awaits_blank (hb : Blank b) : Awaits Spells b := by
  intro j w hw
  have h := viable_text hb hw (b := []) nofun
  rwa [List.append_nil] at h

theorem Items.concat {as : List α} {a : α} {m u w : List Char} (hm : Items Q as m) (hu : Mark ',' u)
    (ha : Q a w) : Items Q (as ++ [a]) (m ++ (u ++ w)) := by
  induction hm with
  | one hb => exact .more hb hu (.one ha)
  | @more a' w' u' as' m' hb hu' _ ih =>
      have h := Items.more hb hu' ih
      simpa using h

section Lists

variable {l r : Char} (h : Awaits (Listed l r Q) p) (hb : Blank b)

include h hb

theorem Awaits.opened : Viable (p ++ l :: b) := by
  have hlist : Listed l r Q [] ((l :: b) ++ [r]) := .empty ⟨[], b, nofun, hb, rfl⟩ ⟨[], [], nofun, nofun, rfl⟩
  have hv := h _ _ hlist
  rw [← List.append_assoc] at hv
  exact hv.of_append

theorem Awaits.hosts : Hosts Q (p ++ l :: b) := by
  intro as m b' hm hb'
  have hlist : Listed l r Q as ((l :: b) ++ (m ++ (b' ++ [r]))) :=
    .items ⟨[], b, nofun, hb, rfl⟩ hm ⟨b', [], hb', nofun, rfl⟩
  have hv := h _ _ hlist
  rw [show p ++ ((l :: b) ++ (m ++ (b' ++ [r]))) = (p ++ l :: b ++ (m ++ b')) ++ [r] by simp] at hv
  exact hv.of_append

end Lists

theorem Hosts.awaits (h : Hosts Q p) : Awaits Q p := by
  intro a w hw
  have hv := h _ _ [] (.one hw) nofun
  rwa [List.append_nil] at hv

/-- After a comma one more part may stand. -/
theorem Hosts.awaits_next (h : Hosts Q p) {as : List α} {m b' : List Char} (hm : Items Q as m)
    (hb : Blank b) (hb' : Blank b') : Awaits Q (p ++ (m ++ b) ++ (',' :: b')) := by
  intro a w hw
  have hv := h _ _ [] (hm.concat ⟨b, b', hb, hb', rfl⟩ hw) nofun
  simpa using hv

end

theorem Awaits.value {p k b b' : List Char} (h : Awaits (Member Spells) p) (hk : IsString k) (hb : Blank b)
    (hb' : Blank b') : Awaits Spells (p ++ (k ++ b) ++ (':' :: b')) := by
  intro j w hw
  have hv := h _ _ (.mk hk ⟨b, b', hb, hb', rfl⟩ hw)
  simpa using hv

end Json

namespace JsonRule

open Grammar Json

variable {c : Context} {source p : List Char} {s s' : State JsonRule}

/-! ### Places -/

/-- The state stands behind the text `p` in the source. -/
structure Stands (source p : List Char) (s : State JsonRule) : Prop where
  source_eq : source = p ++ s.rest
  pos : s.pos = p.length

theorem Stands.of_reads {t : Task JsonRule} {w : List Char} (hs : Stands source p s)
    (h : grammar.Reads t c s (some s')) (hw : s.rest = w ++ s'.rest) : Stands source (p ++ w) s' := by
  obtain ⟨u, hu, hpos⟩ := h.advances s' rfl
  obtain rfl : u = w := List.append_cancel_right (hu.symm.trans hw)
  refine ⟨?_, ?_⟩
  · rw [hs.source_eq, hw, List.append_assoc]
  · rw [hpos, hs.pos, List.length_append]

/-- Before the position the source can be completed. -/
def ViableAt (source : List Char) (n : Nat) : Prop := Viable (source.take n)

theorem Stands.viableAt (hs : Stands source p s) (hp : Viable p) : ViableAt source s.pos := by
  unfold ViableAt
  rw [hs.pos, hs.source_eq, List.take_left]
  exact hp

/-- The task tries nothing behind a defect. -/
abbrev Safe (source : List Char) (c : Context) (s : State JsonRule) (t : Task JsonRule) : Prop :=
  grammar.TriesOnly (ViableAt source) c s t

/-! ### Tokens and blanks -/

theorem kind_ne_compound (r : JsonRule) : (grammar.rule r).kind ≠ .compound := by
  cases r <;> decide

theorem safe_token {r : JsonRule} (hr : isToken r = true) (hs : Stands source p s) (hp : Viable p) :
    Safe source c s (.rule r) :=
  triesOnly_atomic kind_ne_compound (rule_of_isToken hr).1 (hs.viableAt hp)

theorem safe_normal {r : JsonRule} {e : Expr JsonRule} (hr : grammar.rule r = ⟨.normal, e⟩)
    (hs : Stands source p s) (hp : Viable p)
    (h : ∀ s', Stands source p s' → s'.rest = s.rest → Safe source c s' (.part true e)) :
    Safe source c s (.rule r) :=
  triesOnly_normal hr (hs.viableAt hp) (h _ ⟨hs.source_eq, hs.pos⟩ rfl)

/-- A gap tries blanks where it begins and, if there are some, once more behind them. -/
theorem safe_gap (hc : c.IsPlain) (hs : Stands source p s) (hp : ∀ b, Blank b → Viable (p ++ b)) :
    Safe source c s (.gap true) := by
  have hwhite : ∀ {b : List Char} {s : State JsonRule}, Blank b → Stands source (p ++ b) s →
      Safe source c s (.part false (.ref WHITESPACE)) :=
    fun hb hs => triesOnly_ref (safe_token rfl hs (hp _ hb))
  have hnil : Stands source (p ++ []) s := by rwa [List.append_nil]
  intro n hn
  cases hn with
  | gap _ hn =>
      refine triesOnly_star (hwhite (b := []) nofun hnil) (fun s₁ h₁ n hn => ?_) n hn
      obtain ⟨b, hb, ht, _⟩ := (reads_token rfl hc.keepsNodes).mp (reads_ref.mp h₁)
      obtain ⟨_, hblank, htight⟩ := takes_whitespace.mp ht
      have hs₁ := hnil.of_reads h₁ hb
      rw [List.append_assoc] at hs₁
      cases hn with
      | round_gap hn => cases hn
      | round_part hgap hn =>
          cases reads_gap_tight.mp hgap
          exact hwhite hblank hs₁ n hn
      | rounds hgap hread _ =>
          -- the first round has read all blanks there are
          cases reads_gap_tight.mp hgap
          have hmiss : grammar.Reads (.part false (.ref WHITESPACE)) c s₁ none :=
            .ref ((reads_token_none rfl hc.keepsNodes).mpr (misses_whitespace htight))
          cases hread.unique hmiss

/-- Two parts with blanks between them: what the first part reads can be completed, with blanks behind it,
and there the second part is safe. -/
theorem safe_cat (hc : c.IsPlain) {e₁ e₂ : Expr JsonRule} (hs : Stands source p s) {W : List Char → Prop}
    (hread : ∀ s₁, grammar.Reads (.part true e₁) c s (some s₁) → ∃ w, W w ∧ s.rest = w ++ s₁.rest)
    (hviable : ∀ w b, W w → Blank b → Viable (p ++ (w ++ b)))
    (h₁ : Safe source c s (.part true e₁))
    (h₂ : ∀ w b s₂, W w → Blank b → Stands source (p ++ (w ++ b)) s₂ → s.rest = w ++ (b ++ s₂.rest) →
      Safe source c s₂ (.part true e₂)) : Safe source c s (.part true (.cat e₁ e₂)) := by
  refine triesOnly_cat h₁ (fun s₁ hr₁ => ?_) fun s₁ s₂ hr₁ hr₂ => ?_
  · obtain ⟨w, hw, hrest⟩ := hread s₁ hr₁
    refine safe_gap hc (hs.of_reads hr₁ hrest) fun b hb => ?_
    rw [List.append_assoc]
    exact hviable w b hw hb
  · obtain ⟨w, hw, hrest⟩ := hread s₁ hr₁
    obtain ⟨b, hb, hrest', _⟩ := exists_blank_of_reads_gap hc hr₂
    have hs₂ := (hs.of_reads hr₁ hrest).of_reads hr₂ hrest'
    rw [List.append_assoc] at hs₂
    exact h₂ w b s₂ hw hb hs₂ (by rw [hrest, hrest'])

/-! ### Lists -/

section Lists

variable {α : Type} {Q : α → List Char → Prop} {item : JsonRule} {n : Nat}

/-- A part is safe where it may stand, with less than `n` characters left. -/
def SafeParts (source : List Char) (c : Context) (item : JsonRule) (Q : α → List Char → Prop) (n : Nat) :
    Prop :=
  ∀ {s : State JsonRule} {p : List Char}, s.rest.length < n → Stands source p s → Awaits Q p →
    Safe source c s (.rule item)

variable (hc : c.IsPlain) (hitem : ReadsParts c item Q n) (hsafe : SafeParts source c item Q n)
  (hsome : ∃ a w, Q a w) (hp : Hosts Q p)

include hc hsafe hsome hp

theorem safe_nextItem {as : List α} {m b : List Char} (hm : Items Q as m) (hb : Blank b)
    (hs : Stands source (p ++ (m ++ b)) s) (hn : s.rest.length ≤ n) :
    Safe source c s (.part true (nextItem item)) := by
  have hnext : ∀ b', Blank b' → Awaits Q (p ++ (m ++ b) ++ ([','] ++ b')) :=
    fun b' hb' => hp.awaits_next hm hb hb'
  refine triesOnly_group (safe_cat hc hs (W := (· = [','])) (fun s₁ h₁ => ⟨_, rfl, ?_⟩) ?_ ?_ ?_)
  · exact text_of_reads_fixed hc rfl h₁
  · rintro w b' rfl hb'
    obtain ⟨a, w, hw⟩ := hsome
    exact (hnext b' hb' a w hw).of_append
  · exact triesOnly_ref (safe_token rfl hs (hp _ _ _ hm hb))
  · rintro w b' s₂ rfl hb' hs₂ hrest
    refine triesOnly_ref (hsafe ?_ hs₂ (hnext b' hb'))
    rw [hrest] at hn
    simp only [List.length_append, List.length_singleton] at hn
    omega

include hitem

theorem safe_rounds : ∀ (k : Nat) {s : State JsonRule} {as : List α} {m : List Char}, s.rest.length < k →
    k ≤ n → Items Q as m → Stands source (p ++ m) s → Safe source c s (.rounds true (nextItem item)) := by
  intro k
  induction k with
  | zero => exact fun hk => absurd hk (Nat.not_lt_zero _)
  | succ k ih =>
      intro s as m hk hkn hm hs q hq
      cases hq with
      | round_gap hq =>
          refine safe_gap hc hs (fun b hb => ?_) q hq
          rw [List.append_assoc]
          exact hp _ _ _ hm hb
      | @round_part _ _ _ _ s₁ h₁ hq =>
          obtain ⟨b, hb, hr₁, _⟩ := exists_blank_of_reads_gap hc h₁
          have hs₁ := hs.of_reads h₁ hr₁
          rw [List.append_assoc] at hs₁
          rw [hr₁, List.length_append] at hk
          exact safe_nextItem hc hsafe hsome hp hm hb hs₁ (by omega) q hq
      | @rounds _ _ _ _ s₁ s₂ h₁ h₂ hq =>
          obtain ⟨b, hb, hr₁, _⟩ := exists_blank_of_reads_gap hc h₁
          rw [hr₁, List.length_append] at hk
          obtain ⟨b', a, w, hb', ha, hr₂⟩ := mark_of_reads_nextItem hc hitem (by omega) h₂
          have hs₂ := (hs.of_reads h₁ hr₁).of_reads (w := ',' :: (b' ++ w)) h₂ (by rw [hr₂]; simp)
          rw [hr₂] at hk
          simp only [List.length_append, List.length_cons] at hk
          refine ih (by omega) (by omega) (hm.concat ⟨b, b', hb, hb', rfl⟩ ha) ?_ q hq
          simpa using hs₂

theorem safe_items (hs : Stands source p s) (hn : s.rest.length < n) :
    Safe source c s (.part true (items item)) := by
  refine triesOnly_group (safe_cat hc hs (W := fun w => ∃ a, Q a w) (fun s₁ h₁ => ?_) ?_ ?_ ?_)
  · obtain ⟨a, w, ha, hw⟩ := hitem hn (reads_ref.mp h₁)
    exact ⟨w, ⟨a, ha⟩, hw⟩
  · rintro w b ⟨a, ha⟩ hb
    exact hp _ _ _ (.one ha) hb
  · exact triesOnly_ref (hsafe hn hs hp.awaits)
  · rintro w b s₂ ⟨a, ha⟩ hb hs₂ hrest
    rw [hrest] at hn
    simp only [List.length_append] at hn
    refine triesOnly_star (safe_nextItem hc hsafe hsome hp (.one ha) hb hs₂ (by omega)) fun s₃ h₃ => ?_
    obtain ⟨b', a', w', hb', ha', hr₃⟩ := mark_of_reads_nextItem hc hitem (by omega) h₃
    have hs₃ := hs₂.of_reads (w := ',' :: (b' ++ w')) h₃ (by rw [hr₃]; simp)
    rw [hr₃] at hn
    simp only [List.length_append, List.length_cons] at hn
    refine safe_rounds hc hitem hsafe hsome hp n (by omega) (Nat.le_refl n)
      (.more ha ⟨b, b', hb, hb', rfl⟩ (.one ha')) ?_
    simpa using hs₃

omit hp

theorem safe_listOf {opening closing : JsonRule} {l r : Char} (hl : opening.fixedText? = some [l])
    (hr : closing.fixedText? = some [r]) (hs : Stands source p s) (hn : s.rest.length ≤ n)
    (h : Awaits (Listed l r Q) p) : Safe source c s (.part true (listOf opening item closing)) := by
  refine triesOnly_group (safe_cat hc hs (W := (· = [l])) (fun s₁ h₁ => ⟨_, rfl, ?_⟩) ?_ ?_ ?_)
  · exact text_of_reads_fixed hc hl h₁
  · rintro w b rfl hb
    exact h.opened hb
  · exact triesOnly_ref (safe_token (body_of_fixedText? hl).1 hs (h.opened (b := []) nofun).of_append)
  · rintro w b s₁ rfl hb hs₁ hrest
    rw [hrest] at hn
    simp only [List.length_append, List.length_singleton] at hn
    have hhosts : Hosts Q (p ++ ([l] ++ b)) := h.hosts hb
    -- what the brackets hold so far can be completed, with more blanks behind it
    have hheld : ∀ m b', (m = [] ∨ ∃ as m' b'', Items Q as m' ∧ Blank b'' ∧ m = m' ++ b'') → Blank b' →
        Viable (p ++ ([l] ++ b) ++ (m ++ b')) := by
      rintro m b' (rfl | ⟨as, m', b'', hm, hb'', rfl⟩) hb'
      · have hv := h.opened (blank_append hb hb')
        simpa using hv
      · have hv := hhosts _ _ _ hm (blank_append hb'' hb')
        simpa using hv
    refine safe_cat hc hs₁ (fun s₂ h₂ => ?_) hheld
      (triesOnly_opt (safe_items hc hitem hsafe hsome hhosts hs₁ (by omega))) ?_
    · rcases reads_opt.mp h₂ with ⟨_, h₂, ho⟩ | ⟨_, ho⟩
      · cases ho
        obtain ⟨as, m, b', hm, hb', hr₂⟩ := items_of_reads hc hitem (by omega) h₂
        exact ⟨m ++ b', .inr ⟨as, m, b', hm, hb', rfl⟩, by rw [hr₂, List.append_assoc]⟩
      · cases ho
        exact ⟨[], .inl rfl, rfl⟩
    · intro m b' s₂ hm hb' hs₂ _
      exact triesOnly_ref (safe_token (body_of_fixedText? hr).1 hs₂ (hheld m b' hm hb'))

end Lists

/-! ### Values -/

/-- There are members, such as `"":null`. -/
theorem exists_member : ∃ m w, Member Spells m w :=
  ⟨_, _, .mk ⟨[], nofun, rfl⟩ ⟨[], [], nofun, nofun, rfl⟩ .null⟩

theorem safeParts_member (hc : c.IsPlain) {n : Nat} (hvalue : SafeParts source c value Spells n) :
    SafeParts source c member (Member Spells) n := by
  intro s p hn hs hp
  have hstart : Viable p := by
    obtain ⟨a, w, hw⟩ := exists_member
    exact (hp a w hw).of_append
  have hnext : ∀ k b b', IsString k → Blank b → Blank b' → Viable (p ++ (k ++ b) ++ ([':'] ++ b')) :=
    fun k b b' hk hb hb' => (hp.value hk hb hb' _ _ .null).of_append
  refine safe_normal rule_member hs hstart fun s₀ hs hs₀ => triesOnly_group ?_
  rw [← hs₀] at hn
  refine safe_cat hc hs (W := IsString) (fun s₁ h₁ => ?_) (fun k b hk hb => ?_) ?_ ?_
  · obtain ⟨k, hk, ht, _⟩ := (reads_token rfl hc.keepsNodes).mp (reads_ref.mp h₁)
    exact ⟨k, takes_string.mp ht, hk⟩
  · exact (hnext k b [] hk hb nofun).of_append
  · exact triesOnly_ref (safe_token rfl hs hstart)
  · intro k b s₁ hk hb hs₁ hrest
    refine safe_cat hc hs₁ (W := (· = [':'])) (fun s₂ h₂ => ⟨_, rfl, ?_⟩) ?_ ?_ ?_
    · exact text_of_reads_fixed hc rfl h₂
    · rintro w b' rfl hb'
      exact hnext k b b' hk hb hb'
    · exact triesOnly_ref (safe_token rfl hs₁ (hnext k b [] hk hb nofun).of_append)
    · rintro w b' s₂ rfl hb' hs₂ hrest'
      refine triesOnly_ref (hvalue ?_ hs₂ (hp.value hk hb hb'))
      have hlength := congrArg List.length hrest
      rw [hrest'] at hlength
      simp only [List.length_append, List.length_singleton] at hlength
      omega

/-- A value is safe where it may stand. -/
theorem safeParts_value (hc : c.IsPlain) (n : Nat) : SafeParts source c value Spells n := by
  induction n with
  | zero => exact fun hn => absurd hn (Nat.not_lt_zero _)
  | succ n ih =>
      intro s p hn hs hp
      have hstart : Viable p := (hp _ _ .null).of_append
      have hle : s.rest.length ≤ n := Nat.le_of_lt_succ hn
      refine safe_normal rule_value hs hstart fun s₀ hs hs₀ => triesOnly_choice nofun fun e he => ?_
      rw [← hs₀] at hle
      obtain ⟨r, hr, rfl⟩ := List.mem_map.mp he
      refine triesOnly_ref ?_
      simp only [valueRules, List.mem_cons, List.not_mem_nil, or_false] at hr
      rcases hr with rfl | rfl | rfl | rfl | rfl | rfl | rfl
      · refine safe_normal rule_object hs hstart fun s₁ hs hs₁ => ?_
        exact safe_listOf hc (readsParts_member hc (exists_spells_of_reads hc n)) (safeParts_member hc ih)
          exists_member rfl rfl hs (hs₁ ▸ hle) fun ms w hw => hp _ _ (.object hw)
      · refine safe_normal rule_array hs hstart fun s₁ hs hs₁ => ?_
        exact safe_listOf hc (exists_spells_of_reads hc n) ih ⟨_, _, .null⟩ rfl rfl hs (hs₁ ▸ hle)
          fun js w hw => hp _ _ (.array hw)
      all_goals exact safe_token rfl hs hstart

/-! ### Whole sources -/

/-- Before every position that is tried the source can be completed. -/
theorem safe_document (hc : c.IsPlain) : Safe source c (initialState source) (.rule document) := by
  have hs : Stands source [] (initialState source) := ⟨rfl, rfl⟩
  have hblank : ∀ b, Blank b → Viable b := fun b hb => (awaits_blank hb _ _ .null).of_append
  refine safe_normal rule_document hs (hblank [] nofun) fun s₀ hs _ => triesOnly_group ?_
  refine safe_cat hc hs (W := (· = [])) (fun s₁ h₁ => ⟨[], rfl, ?_⟩) ?_ ?_ ?_
  · have hstart : some s₁ = if s₀.pos = 0 then some s₀ else none := (reads_leaf rfl).mp h₁
    have hzero : s₀.pos = 0 := hs.pos
    rw [if_pos hzero] at hstart
    cases hstart
    rfl
  · rintro w b rfl hb
    exact hblank b hb
  · intro q hq
    cases hq
  · rintro w b s₁ rfl hb hs₁ _
    -- so far there are blanks, or a value between blanks
    have hheld : ∀ m b', (m = [] ∨ ∃ j : Json, j.Spells m) → Blank b' → Viable ([] ++ ([] ++ b) ++ (m ++ b')) := by
      rintro m b' (rfl | ⟨j, hm⟩) hb'
      · exact hblank _ (blank_append hb hb')
      · exact viable_text hb hm hb'
    refine safe_cat hc hs₁ (fun s₂ h₂ => ?_) hheld (triesOnly_opt (triesOnly_ref ?_)) ?_
    · rcases reads_opt.mp h₂ with ⟨_, h₂, ho⟩ | ⟨_, ho⟩
      · cases ho
        obtain ⟨j, w, hj, hw⟩ := exists_spells_of_reads hc _ (Nat.lt_succ_self _) (reads_ref.mp h₂)
        exact ⟨w, .inr ⟨j, hj⟩, hw⟩
      · cases ho
        exact ⟨[], .inl rfl, rfl⟩
    · exact safeParts_value hc _ (Nat.lt_succ_self _) hs₁ (awaits_blank hb)
    · intro m b' s₂ hm hb' hs₂ _
      refine triesOnly_ref (safe_normal (e := .endOfInput) rfl hs₂ (hheld m b' hm hb') fun s₃ _ _ q hq => ?_)
      cases hq

/-- What is known of the rules: these match at least one character. -/
theorem progresses : grammar.Progresses [COMMA, WHITESPACE, escape].contains where
  consumes r := by cases r <;> decide
  body r := by cases r <;> decide
  trivia := rfl

end JsonRule

namespace Language

/-- **The first defect of a JSON source.**  A source is rejected behind a beginning that can be completed:
there is a text with which it is accepted, without a limit on units and with all rules open that it takes.
Together they also have a tree, unless something is exhausted. -/
theorem viable_mismatch (origin source : String) (limit : Option Nat) (m : Mismatch)
    (h : json.parseTree origin source limit = .error (.mismatched m)) :
    ∃ before after completion, source = before ++ after ∧ m.offset = before.utf8ByteSize ∧
      (∃ n, ∀ nesting, n ≤ nesting →
        ∃ ms, json.grammar.parseWithin .abandon nesting none (before ++ completion).toList = .ok ms) ∧
      ((∃ t, json.parseTree origin (before ++ completion) none = .ok t) ∨
        ∃ reason, json.parseTree origin (before ++ completion) none =
          .error (.exhausted .parsing reason)) := by
  obtain ⟨pos, rs, hp, rfl⟩ := exists_mismatch_of_parseTree h
  have htried := JsonRule.steady.tries_of_mismatch hp
  obtain ⟨t, j, hj⟩ := JsonRule.safe_document (JsonRule.isPlain_initialContext limit _) pos htried
  have hj : j.IsText (String.ofList (source.toList.take pos) ++ String.ofList t).toList := by
    rw [String.toList_append, String.toList_ofList, String.toList_ofList]
    exact hj
  refine ⟨_, _, _, ofList_take_append_drop source pos, Mismatch.offset_at .., ?_,
    parseTree_of_isText origin hj⟩
  obtain ⟨s', hread, _⟩ := JsonRule.reads_document_of_isText (JsonRule.isPlain_initialContext none _) hj
  obtain ⟨n, hn⟩ := JsonRule.progresses.parseWithin_of_reads hread
  exact ⟨n, fun nesting hle => ⟨_, hn nesting hle⟩⟩

theorem viable_mismatch_colon :
    ∃ m, json.parseTree "a.json" "[1, \x7b\"a\" 2\x7d]" none = .error (.mismatched m) ∧ m.offset = 9 ∧
      ∃ before after completion, "[1, \x7b\"a\" 2\x7d]" = before ++ after ∧ m.offset = before.utf8ByteSize ∧
        (∃ n, ∀ nesting, n ≤ nesting →
          ∃ ms, json.grammar.parseWithin .abandon nesting none (before ++ completion).toList = .ok ms) ∧
        ((∃ t, json.parseTree "a.json" (before ++ completion) none = .ok t) ∨
          ∃ reason, json.parseTree "a.json" (before ++ completion) none =
            .error (.exhausted .parsing reason)) := by
  have hplace : (json.mismatch? "a.json" "[1, \x7b\"a\" 2\x7d]" none).map (·.offset) = some 9 := by
    decide +kernel
  obtain ⟨m, hm, hoffset⟩ := Option.map_eq_some_iff.mp hplace
  have hparse := parseTree_of_mismatch? hm
  exact ⟨m, hparse, hoffset, viable_mismatch "a.json" _ none m hparse⟩

end Language

end ConcreteSyntax
