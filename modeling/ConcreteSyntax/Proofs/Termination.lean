import ConcreteSyntax.Proofs.Grammar.Termination
import ConcreteSyntax.Proofs.Limits
import ConcreteSyntax.Proofs.Rejections

/-! # Every parse ends

The grammars of all languages are grounded: but for a few rules that may match nothing, every rule matches at least
one character, every round of a repetition does, and chains of rules that lead to each other are short
(`Language.exists_grounded`).  All of this is found from the tables of the rules.  So without limits every
source is parsed or rejected (`Language.parse_terminates`). -/

namespace ConcreteSyntax

section Checks

variable {R : Type} {g : Grammar R} {known : R → Bool} {depth : Nat}

/-- Whether the listed rules match a character where they are known to, move on in their repetitions, and lead
to short chains. -/
def Grammar.checksGround (g : Grammar R) (known : R → Bool) (depth : Nat) : Bool :=
  g.trivia.progresses known && g.rules.all fun r => (!known r || (g.rule r).body.consumes known) &&
    (g.rule r).body.progresses known && g.shallow known depth r

theorem Grammar.grounded_of_checks (hm : ∀ r, r ∈ g.rules) (h : g.checksGround known depth = true) :
    g.Grounded known depth := by
  obtain ⟨htrivia, hrules⟩ := Bool.and_eq_true_iff.mp h
  have hall : ∀ r, ((known r = true → (g.rule r).body.consumes known = true) ∧
      (g.rule r).body.progresses known = true) ∧ g.shallow known depth r = true := by
    intro r
    simpa [← Bool.not_eq_true, ← Decidable.imp_iff_not_or] using forall_of_all hm hrules r
  exact ⟨⟨fun r => (hall r).1.1, fun r => (hall r).1.2, htrivia⟩, fun r => (hall r).2⟩

end Checks

/-- The rules that may match nothing. -/
def JsonRule.nullable : List JsonRule := [EOI, document]

/-- The rules that may match nothing: a body can be empty, the end of an item can be a lookahead, and nested
templates mark where they begin and drop the mark where they end. -/
def HclRule.nullable : List HclRule :=
  [EOI, configFile, body, itemEnd, templateInner, nestOpen, nestClose, nested]

def JavaRule.nullable : List JavaRule := [EOI, compilationUnit]

theorem JsonRule.grounded : grammar.Grounded (fun r => !nullable.contains r) 20 :=
  Grammar.grounded_of_checks mem_all (by decide +kernel)

theorem HclRule.grounded : grammar.Grounded (fun r => !nullable.contains r) 40 :=
  Grammar.grounded_of_checks mem_all (by decide +kernel)

theorem JavaRule.grounded : grammar.Grounded (fun r => !nullable.contains r) 40 :=
  Grammar.grounded_of_checks mem_all (by decide +kernel)

namespace Language

theorem exists_grounded : ∀ l : Language, ∃ known depth, l.grammar.Grounded known depth
  | java => ⟨_, _, JavaRule.grounded⟩
  | json => ⟨_, _, JsonRule.grounded⟩
  | hcl => ⟨_, _, HclRule.grounded⟩

/-- **Every parse ends.**  Without a limit on units and with enough rules open at once, a source is parsed, always
to the same matches, or it is rejected, and this takes finitely many units: all limits from some number on
give the same.  A rule that is open is entered again only at a later place, and a round of a repetition,
of trivia too, reads at least one character. -/
theorem parse_terminates (l : Language) (source : String) :
    ((∃ ms, Eventually fun n => l.grammar.parseWithin .abandon n none source.toList = .ok ms) ∨
      Eventually fun n => ∃ pos rs,
        l.grammar.parseWithin .abandon n none source.toList = .error (.mismatch pos rs)) ∧
    (Eventually fun n => Eventually fun m => l.grammar.parseWithin .abandon n (some m) source.toList =
      l.grammar.parseWithin .abandon n none source.toList) ∧
    (∀ r c c' s s', Relation.TransGen l.grammar.Enters ⟨.rule r, c, s⟩ ⟨.rule r, c', s'⟩ → s.pos < s'.pos) ∧
    (∀ e, l.grammar.Repeats e → ∀ b c s s', l.grammar.Reads (.part b e) c s (some s') → s.pos < s'.pos) := by
  obtain ⟨known, depth, hl⟩ := l.exists_grounded
  have hanswers := hl.parseWithin_answers source.toList
  have hfinite : Eventually fun n => ∀ why,
      l.grammar.parseWithin .abandon n none source.toList ≠ .error (.abandoned why) := by
    rcases hanswers with ⟨ms, hms⟩ | hrejected
    · refine hms.imp fun n hn why => ?_
      rw [hn]
      intro h
      cases h
    · refine hrejected.imp fun n hn why => ?_
      obtain ⟨pos, rs, hn⟩ := hn
      rw [hn]
      intro h
      cases h
  exact ⟨hanswers, hfinite.imp fun n hn => l.grammar.exists_parseWithin_eq hn,
    fun r c c' s s' h => hl.pos_lt_of_reenters h, fun e he b c s s' h => hl.pos_lt_of_round he h⟩

/-- Inside of a template a brace opens a template again, and blanks are repeated before the end of a heredoc. -/
theorem parse_terminates_braces :
    ∃ (c : Context) (s s' : State HclRule) (e : Expr HclRule),
      Relation.TransGen HclRule.grammar.Enters ⟨.rule .templateInner, c, s⟩ ⟨.rule .templateInner, c, s'⟩ ∧
      s.pos < s'.pos ∧ HclRule.grammar.Repeats e ∧
      ∃ s₁ s₂, HclRule.grammar.Reads (.part false e) c s₁ (some s₂) ∧ s₁.pos < s₂.pos := by
  obtain ⟨_, _, hrule, hround⟩ := parse_terminates hcl "\"$\x7b\x7b\x7d\x7d\""
  let c : Context := { atomicity := .atomic, rounds := 2 }
  let s : State HclRule := { rest := ['{', '}'], pos := 3, marks := [], nodes := [] }
  let s' : State HclRule := { rest := ['}'], pos := 4, marks := [], nodes := [] }
  have hquote : HclRule.grammar.Reads (.part true (.ref .quotedTemplate)) c s none :=
    .ref (.silent rfl (.group (.cat_left (.leaf rfl))))
  have hbrace : HclRule.grammar.Reads (.part true (.word ['{'])) c s (some s') := .leaf rfl
  have hgap : HclRule.grammar.Reads (.gap true) c s' (some s') := .gap_closed (by decide)
  have hchain : Relation.TransGen HclRule.grammar.Enters ⟨.rule .templateInner, c, s⟩
      ⟨.rule .templateInner, c, s'⟩ := by
    exact .tail (.tail (.tail (.tail (.tail (.tail (.tail (.single (.silent rfl)) .star_first)
      (.alt_right hquote)) .alt_left) .group) (.cat_right hbrace hgap)) .cat_left) .ref
  have hrepeats : HclRule.grammar.Repeats (.oneOf [" ", "\t"]) :=
    .inr ⟨.Heredoc, .tail _ (.head _)⟩
  have hblank : HclRule.grammar.Reads (.part false (.oneOf [" ", "\t"])) c
      { rest := [' '], pos := 0, marks := [], nodes := [] }
      (some { rest := [], pos := 1, marks := [], nodes := [] }) := .alt_left (.leaf rfl)
  exact ⟨c, s, s', _, hchain, hrule _ _ _ _ _ hchain, hrepeats, _, _, hblank,
    hround _ hrepeats _ _ _ _ hblank⟩

end Language

end ConcreteSyntax
