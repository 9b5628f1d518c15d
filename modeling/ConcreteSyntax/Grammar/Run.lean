import ConcreteSyntax.Grammar.Expr

/-! # Running a grammar

Ordered choice takes the first alternative that matches, repetition takes as many rounds as it
can, and neither is reconsidered later.

* **State** (`State`).  The rest of the input and the offset where it starts, the marks, and the
  nodes found so far, latest first.  A failure carries no state: whoever goes on after one goes on
  from the state in which the failed part was started, so position, marks and nodes are given back
  by construction.
* **Ledger** (`Ledger`).  What backtracking never undoes: the number of units entered and the
  attempts at the furthest position.  Entering a group, option, repetition, lookahead, mark, named or
  atomic rule is one unit; a limit on units refuses those beyond it.
* **Refusals** (`Refusal`).  A refused unit ends the whole parse, or it fails as other parts fail and
  whatever surrounds it goes on.
* **Attempts** (`Attempts`).  Only rules that failed (or, under a negation, matched) at the furthest
  position tried so far are kept.  A rule replaces what was tried inside it at its own start, unless
  exactly one thing was.
* **Outcome** (`Outcome`).  A match, a failure, or an abandoned parse: the limit on units was
  reached, too many rules were open at once, or a repetition went round without end.

`Grammar.invoke` runs a rule; its first argument bounds how many rules may be open inside each
other. -/

namespace ConcreteSyntax

/-- A matched rule: what part of the input it covers, by character offsets, and what was matched
inside. -/
inductive Match (R : Type) where
  | node (rule : R) (start stop : Nat) (children : List (Match R))
deriving Repr

/-- What a parse has read and found so far. -/
structure State (R : Type) where
  rest : List Char
  pos : Nat
  marks : List (List Char)
  nodes : List (Match R)

/-- What was tried at the furthest position: the rules expected there, latest first, and how many
attempts there were, those counted in that were to fail. -/
structure Attempts (R : Type) where
  pos : Nat := 0
  expected : List R := []
  count : Nat := 0

/-- What a parse has spent and tried, also in parts that failed. -/
structure Ledger (R : Type) where
  calls : Nat := 0
  attempts : Attempts R := {}

/-- Why a parse was given up. -/
inductive Abandonment where
  | callLimit
  | nestingLimit
  | endlessRepetition
deriving DecidableEq, Repr

/-- What a refused unit does. -/
inductive Refusal where
  /-- It ends the parse. -/
  | abandon
  /-- It fails, and the parse goes on. -/
  | fail
deriving DecidableEq, Repr

/-- How running an expression ends. -/
inductive Outcome (R : Type) where
  | matched (s : State R) (l : Ledger R)
  | failed (l : Ledger R)
  | abandoned (why : Abandonment)

/-- Whether trivia is matched and nodes are kept. -/
inductive Atomicity where
  /-- Trivia is matched and nodes are kept. -/
  | free
  /-- No trivia; nodes are kept. -/
  | compound
  /-- No trivia and no nodes. -/
  | atomic
deriving DecidableEq, Repr

/-- Whether the parse only looks ahead, and whether a match there counts for or against it. -/
inductive Lookahead where
  | none
  | positive
  | negative
deriving DecidableEq, Repr

namespace Lookahead

/-- Looking ahead for an expression. -/
def affirm : Lookahead → Lookahead
  | none => positive
  | l => l

/-- Looking ahead for the absence of an expression. -/
def negate : Lookahead → Lookahead
  | negative => positive
  | _ => negative

end Lookahead

variable {R : Type}

/-- What stays fixed while an expression is run. -/
structure Context where
  atomicity : Atomicity := .free
  lookahead : Lookahead := .none
  /-- How many units may be entered. -/
  limit : Option Nat := none
  /-- How many rounds a repetition may take; one more than the input has characters is enough for
  every repetition that reads something in each round. -/
  rounds : Nat

/-- Nodes are kept outside lookaheads and atomic rules. -/
def Context.keepsNodes (c : Context) : Bool := c.lookahead = .none && c.atomicity ≠ .atomic

/-- Whether more units were asked for than may be entered. -/
def Context.exceeded (c : Context) (l : Ledger R) : Bool :=
  match c.limit with
  | none => false
  | some n => n < l.calls

/-- One way to go on from a state. -/
abbrev Step (R : Type) := Context → State R → Ledger R → Outcome R

/-! ### The cursor -/

/-- The rest of the text after a word, if the text starts with it. -/
def stripWord : List Char → List Char → Option (List Char)
  | [], cs => some cs
  | _ :: _, [] => none
  | w :: ws, c :: cs => if w = c then stripWord ws cs else none

/-- The rest of the text after a word in any ASCII case, if the text starts with it. -/
def stripCaseless : List Char → List Char → Option (List Char)
  | [], cs => some cs
  | _ :: _, [] => none
  | w :: ws, c :: cs => if w.toLower = c.toLower then stripCaseless ws cs else none

/-- The text from the first place where one of the words starts, or from its end, and how many
characters stand before. -/
def skipUpTo (stops : List (List Char)) : List Char → Nat → List Char × Nat
  | [], n => ([], n)
  | c :: cs, n =>
    if stops.any fun w => (stripWord w (c :: cs)).isSome then (c :: cs, n)
    else skipUpTo stops cs (n + 1)

namespace State

/-- The state after `n` more characters, which leave `rest`. -/
def advance (s : State R) (rest : List Char) (n : Nat) : State R :=
  { s with rest := rest, pos := s.pos + n }

/-- The state after a word. -/
def strip? (s : State R) (w : List Char) : Option (State R) :=
  (stripWord w s.rest).map fun rest => s.advance rest w.length

/-- The text between this state and a later one. -/
def textTo (s t : State R) : List Char := s.rest.take (t.pos - s.pos)

end State

/-! ### The ledger -/

namespace Attempts

/-- How many attempts are kept at a position. -/
def countAt (a : Attempts R) (pos : Nat) : Nat := if a.pos = pos then a.count else 0

/-- The attempts kept at a position, and no others. -/
def restrictTo (a : Attempts R) (pos : Nat) : Attempts R :=
  if a.pos = pos then a else { pos := pos }

/-- One more attempt. -/
def add (a : Attempts R) (r : R) (negative : Bool) : Attempts R :=
  { a with expected := if negative then a.expected else r :: a.expected, count := a.count + 1 }

/-- Keep a rule that was tried at a position, in place of what was tried inside it.  `before` are
the attempts when the rule was entered.  If exactly one attempt was added at that position since,
that one says more than the rule itself and stays; if something was tried further on, that stays. -/
def track (a before : Attempts R) (r : R) (pos : Nat) (negative : Bool) : Attempts R :=
  if a.countAt pos = before.countAt pos + 1 ∨ pos < a.pos then a
  else (before.restrictTo pos).add r negative

end Attempts

/-- Keep a rule that was tried at a position, unless an atomic rule is being run. -/
def Ledger.track (l : Ledger R) (c : Context) (before : Attempts R) (r : R) (pos : Nat) :
    Ledger R :=
  if c.atomicity = .atomic then l
  else { l with attempts := l.attempts.track before r pos (c.lookahead = .negative) }

namespace Step

/-- Go on as one unit, unless it is refused. -/
@[inline] def counted (refusal : Refusal) (k : Step R) : Step R := fun c s l =>
  let l := { l with calls := l.calls + 1 }
  if c.exceeded l then
    match refusal with
    | .abandon => .abandoned .callLimit
    | .fail => .failed l
  else k c s l

/-- Go on under another atomicity. -/
@[inline] def within (refusal : Refusal) (a : Atomicity) (k : Step R) : Step R :=
  counted refusal fun c s l => k { c with atomicity := a } s l

/-- Go round until a round fails. -/
def repeated (k : Step R) (c : Context) : Nat → State R → Ledger R → Outcome R
  | 0, _, _ => .abandoned .endlessRepetition
  | n + 1, s, l =>
    match k c s l with
    | .matched s' l' => repeated k c n s' l'
    | .failed l' => .matched s l'
    | .abandoned why => .abandoned why

/-- Run what a rule matches, keep a node for it, and keep the attempt. -/
@[inline] def named (refusal : Refusal) (r : R) (k : Step R) : Step R :=
  counted refusal fun c s l =>
  match k c { s with nodes := [] } l with
  | .matched s' l' =>
    .matched
      { s' with
        nodes :=
          if c.keepsNodes then .node r s.pos s'.pos s'.nodes.reverse :: s.nodes
          else s'.nodes ++ s.nodes }
      (if c.lookahead = .negative then l'.track c l.attempts r s.pos else l')
  | .failed l' => .failed (if c.lookahead = .negative then l' else l'.track c l.attempts r s.pos)
  | .abandoned why => .abandoned why

end Step

/-! ### Expressions and rules -/

/-- Run an expression.  `call` runs a rule, `skip` matches trivia, and `spaced` tells whether
trivia stands between juxtaposed parts and between the rounds of a repetition. -/
def Expr.run (refusal : Refusal) (call : R → Step R) (skip : Step R) (spaced : Bool) :
    Expr R → Step R
  | .word w, _, s, l =>
    match s.strip? w with
    | some s' => .matched s' l
    | none => .failed l
  | .caseless w, _, s, l =>
    match stripCaseless w s.rest with
    | some rest => .matched (s.advance rest w.length) l
    | none => .failed l
  | .char k, _, s, l =>
    match s.rest with
    | [] => .failed l
    | ch :: rest => if k.mem ch then .matched (s.advance rest 1) l else .failed l
  | .startOfInput, _, s, l => if s.pos = 0 then .matched s l else .failed l
  | .endOfInput, _, s, l => if s.rest.isEmpty then .matched s l else .failed l
  | .upTo stops, _, s, l =>
    let (rest, n) := skipUpTo stops s.rest 0
    .matched (s.advance rest n) l
  | .ref r, c, s, l => call r c s l
  | .cat a b, c, s, l =>
    match a.run refusal call skip spaced c s l with
    | .matched s' l' =>
      if spaced then
        match skip c s' l' with
        | .matched s'' l'' => b.run refusal call skip spaced c s'' l''
        | .failed l'' => .failed l''
        | .abandoned why => .abandoned why
      else b.run refusal call skip spaced c s' l'
    | .failed l' => .failed l'
    | .abandoned why => .abandoned why
  | .group e, c, s, l => Step.counted refusal (e.run refusal call skip spaced) c s l
  | .alt a b, c, s, l =>
    match a.run refusal call skip spaced c s l with
    | .matched s' l' => .matched s' l'
    | .failed l' => b.run refusal call skip spaced c s l'
    | .abandoned why => .abandoned why
  | .opt e, c, s, l =>
    Step.counted refusal (fun c s l =>
      match e.run refusal call skip spaced c s l with
      | .matched s' l' => .matched s' l'
      | .failed l' => .matched s l'
      | .abandoned why => .abandoned why) c s l
  | .star e, c, s, l =>
    if spaced then
      Step.counted refusal (Step.counted refusal fun c s l =>
        match e.run refusal call skip spaced c s l with
        | .matched s' l' =>
          Step.counted refusal (fun c s l =>
            Step.repeated (Step.counted refusal fun c s l =>
              match skip c s l with
              | .matched s' l' => e.run refusal call skip spaced c s' l'
              | .failed l' => .failed l'
              | .abandoned why => .abandoned why) c c.rounds s l) c s' l'
        | .failed l' => .matched s l'
        | .abandoned why => .abandoned why) c s l
    else
      Step.counted refusal (fun c s l =>
        Step.repeated (e.run refusal call skip spaced) c c.rounds s l) c s l
  | .ahead e, c, s, l =>
    Step.counted refusal (fun c s l =>
      match e.run refusal call skip spaced { c with lookahead := c.lookahead.affirm } s l with
      | .matched _ l' => .matched s l'
      | .failed l' => .failed l'
      | .abandoned why => .abandoned why) c s l
  | .notAhead e, c, s, l =>
    Step.counted refusal (fun c s l =>
      match e.run refusal call skip spaced { c with lookahead := c.lookahead.negate } s l with
      | .matched _ l' => .failed l'
      | .failed l' => .matched s l'
      | .abandoned why => .abandoned why) c s l
  | .mark e, c, s, l =>
    Step.counted refusal (fun c s l =>
      match e.run refusal call skip spaced c s l with
      | .matched s' l' => .matched { s' with marks := s.textTo s' :: s'.marks } l'
      | .failed l' => .failed l'
      | .abandoned why => .abandoned why) c s l
  | .peek, _, s, l =>
    match s.marks with
    | [] => .failed l
    | w :: _ =>
      match s.strip? w with
      | some s' => .matched s' l
      | none => .failed l
  | .pop, _, s, l =>
    match s.marks with
    | [] => .failed l
    | w :: marks =>
      match s.strip? w with
      | some s' => .matched { s' with marks := marks } l
      | none => .failed l
  | .drop, _, s, l =>
    match s.marks with
    | [] => .failed l
    | _ :: marks => .matched { s with marks := marks } l

namespace Grammar

variable (g : Grammar R) (refusal : Refusal)

/-- Match trivia, except while an atomic or compound rule is being run. -/
def skip (call : R → Step R) : Step R := fun c s l =>
  if c.atomicity = .free then
    g.trivia.run refusal call (fun _ s l => .matched s l) false c s l
  else .matched s l

/-- Run a rule with at most `n` rules open inside each other. -/
def invoke : Nat → R → Step R
  | 0, _, _, _, _ => .abandoned .nestingLimit
  | n + 1, r, c, s, l =>
    let call := invoke n
    let skip := g.skip refusal call
    match g.rule r with
    | ⟨.normal, e⟩ => Step.named refusal r (e.run refusal call skip true) c s l
    | ⟨.silent, e⟩ => e.run refusal call skip true c s l
    | ⟨.atomic, e⟩ =>
      Step.named refusal r (Step.within refusal .atomic (e.run refusal call skip false)) c s l
    | ⟨.compound, e⟩ =>
      Step.within refusal .compound (Step.named refusal r (e.run refusal call skip false)) c s l

end Grammar

end ConcreteSyntax
