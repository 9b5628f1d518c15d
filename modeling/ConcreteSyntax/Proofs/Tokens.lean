import ConcreteSyntax.Proofs.DerivationTrees
import ConcreteSyntax.Proofs.Positions

/-! # Tokens in their source

Every token of a tree was read by its terminal at the place where the texts of all earlier tokens end, and
what the terminal left unread is the text of all later ones (`Language.exists_reads_of_token`).  So what is
to be shown of a token and of what follows it is shown of one reading of its rule. -/

namespace ConcreteSyntax

variable {R : Type}

/-- The rule of a match and the part of a source it covers. -/
def Match.span : Match R → Span R
  | node r start stop _ => ⟨r, start, stop⟩

section Spans

variable {v : Vocabulary R} {P : Match R → Prop}

mutual

/-- What productions hand down to their parts holds of every terminal. -/
theorem Match.exists_of_mem_spans
    (hP : ∀ m, P m → v.isTerminal m.rule = false → ∀ m' ∈ m.parts, P m') {x : Span R} :
    ∀ {m : Match R}, P m → x ∈ m.spans v → ∃ m', P m' ∧ m'.span = x
  | .node r start stop ms, hm, hx => by
      rw [Match.spans] at hx
      split at hx
      next =>
        rw [List.mem_singleton] at hx
        exact ⟨_, hm, hx.symm⟩
      next hv => exact Match.exists_of_mem_spansAll hP (hP _ hm (Bool.eq_false_iff.mpr hv)) hx

theorem Match.exists_of_mem_spansAll
    (hP : ∀ m, P m → v.isTerminal m.rule = false → ∀ m' ∈ m.parts, P m') {x : Span R} :
    ∀ {ms : List (Match R)}, (∀ m ∈ ms, P m) → x ∈ Match.spansAll v ms → ∃ m', P m' ∧ m'.span = x
  | [], _, hx => by
      rw [Match.spansAll] at hx
      cases hx
  | m :: ms, hms, hx => by
      rw [Match.spansAll] at hx
      obtain ⟨hm, hms⟩ := List.forall_mem_cons.mp hms
      rcases List.mem_append.mp hx with hx | hx
      · exact Match.exists_of_mem_spans hP hm hx
      · exact Match.exists_of_mem_spansAll hP hms hx

end

end Spans

/-- A token was read by its terminal, which started behind the texts of all earlier tokens, moved over the
text of the token, and stopped before the texts of all later ones. -/
theorem Language.exists_reads_of_token {l : Language} {origin source : String} {limit : Option Nat}
    {t : Tree l.Rules} (h : l.parseTree origin source limit = .ok t) {before after : List (Token l.Rules)}
    {tok : Token l.Rules} (ht : t.tokens = before ++ tok :: after) :
    ∃ (k : RuleKind) (e : Expr l.Rules) (c : Context) (s s' : State l.Rules),
      l.grammar.rule tok.kind = ⟨k, e⟩ ∧ c.keepsNodes = true ∧
      l.grammar.Reads (.part k.spaced e) (k.inner c) { s with nodes := [] } (some s') ∧
      source.toList = (String.join (before.map Token.text)).toList ++ s.rest ∧
      s.rest = tok.text.toList ++ s'.rest ∧
      s'.rest = (String.join (after.map Token.text)).toList := by
  obtain ⟨m, xs, hp, hn, hm, htiles, _⟩ := Language.parseTree_spans h
  obtain ⟨_, hl, hleft⟩ := Language.left_of_parse hp
  have htoks : t.tokens = (m.spans l.vocabulary).map (Span.token source.toList) := by
    rw [← (Nested.at_root_of_layout hn).2, Match.tokens_nested]
  obtain ⟨us, vs', hspans, rfl, hvs⟩ := List.map_eq_append_iff.mp (htoks.symm.trans ht)
  obtain ⟨x, vs, rfl, rfl, rfl⟩ := List.map_eq_cons_iff.mp hvs
  have hall : Tiles 0 (us ++ x :: vs) source.toList.length := by
    rw [← hspans, hm]
    exact tiles_append.mpr ⟨_, htiles, rfl, Nat.le_refl _, rfl⟩
  obtain ⟨_, _, hstart, hle, hafter⟩ := tiles_append.mp hall
  obtain ⟨m', ⟨_, hm'⟩, hspan⟩ := Match.exists_of_mem_spans (fun _ => Language.left_parts) ⟨hl, hleft⟩
    (show x ∈ m.spans l.vocabulary by rw [hspans]; simp)
  obtain @⟨r, k, e, c, s, s', hrule, _, hc, hs, hread⟩ := hm'
  subst hspan
  have hin' : s'.In source.toList := hs.1.advances ((hread.advances s' rfl).of_eq rfl rfl rfl rfl)
  obtain ⟨w, hw, hpos⟩ := hread.advances s' rfl
  refine ⟨k, e, c, s, s', hrule, hc, hread, ?_, ?_, ?_⟩
  · have hbefore := hall.flatMap_before (Nat.le_refl _)
    rw [toList_join_text, hbefore, show s.rest = _ from hs.1]
    exact (List.take_append_drop _ _).symm
  · have htext := hs.1.text_eq hw hpos
    simp only [Span.token, String.toList_ofList, Match.span, htext]
    exact hw
  · have hrest := hafter.flatMap_text (Nat.le_refl source.toList.length)
    rw [toList_join_text, List.flatMap_map, hrest, List.take_of_length_le (by simp)]
    exact hin'

theorem Language.exists_token_of_words (l : Language) (origin source : String) (limit : Option Nat)
    (ws : List (l.Rules × String)) (w : l.Rules × String) (ws' : List (l.Rules × String))
    (h : ((l.parseTree origin source limit).toOption.map fun t =>
      t.tokens.map fun tok => (tok.kind, tok.text)) = some (ws ++ w :: ws')) :
    ∃ t before after tok, l.parseTree origin source limit = .ok t ∧
      t.tokens = before ++ tok :: after ∧ tok.kind = w.1 ∧ tok.text = w.2 ∧
      after.map Token.text = ws'.map Prod.snd := by
  cases ht : l.parseTree origin source limit with
  | error f =>
      rw [ht] at h
      cases h
  | ok t =>
      rw [ht] at h
      obtain ⟨before, rest, htoks, _, hrest⟩ := List.map_eq_append_iff.mp (Option.some.inj h)
      obtain ⟨tok, after, rfl, rfl, rfl⟩ := List.map_eq_cons_iff.mp hrest
      exact ⟨t, before, after, tok, rfl, htoks, rfl, rfl, by rw [List.map_map]; rfl⟩

end ConcreteSyntax
