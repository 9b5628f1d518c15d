import ConcreteSyntax.Proofs.Json.Soundness
import ConcreteSyntax.Proofs.Lossless

/-! # Every JSON text is read, and its tree is its derivation

`Json.outline` is the tree of a derivation: one part per element of an array, one per member of an
object, in order, and every literal with its own characters.

* **Yields** (`Yields`).  A task reads a given text in front of a given rest, and leaves nodes with a given
  outline.  Blanks leave nothing, since outlines have no tokens for them.
* **Lists** (`yields_listOf`).  A list is read if its parts are.  Blanks after a part go to the list, to the
  next comma or to the closing bracket, as the grammar has it; the text says only that they are there.
* **Values** (`padded_value`).  By induction over derivations: every value without its outer blanks is read
  in front of what may follow a value.  The first character alone tells which alternative reads it
  (`dispatch`).

`Language.parseTree_json` puts both directions together. -/

namespace ConcreteSyntax

open Json

/-! ### Trees of derivations -/

namespace Json

open JsonRule

/-- Parts between brackets, with commas between them. -/
def bracketed (opening closing : Outline JsonRule) (parts : List (Outline JsonRule)) :
    List (Outline JsonRule) :=
  opening :: (parts.intersperse (.leaf COMMA ",") ++ [closing])

mutual

/-- The tree of a value. -/
def outline : Json → Outline JsonRule
  | null => .node value [.leaf NULL "null"]
  | bool b => .node value [if b then .leaf TRUE "true" else .leaf FALSE "false"]
  | number w => .node value [.leaf NumberLiteral (String.ofList w)]
  | string w => .node value [.leaf StringLiteral (String.ofList w)]
  | array js =>
    .node value [.node JsonRule.array (bracketed (.leaf LBRACK "[") (.leaf RBRACK "]") (outlines js))]
  | object ms =>
    .node value [.node JsonRule.object
      (bracketed (.leaf LBRACE "\x7b") (.leaf RBRACE "\x7d") (memberOutlines ms))]

def outlines : List Json → List (Outline JsonRule)
  | [] => []
  | j :: js => j.outline :: outlines js

def memberOutlines : List (List Char × Json) → List (Outline JsonRule)
  | [] => []
  | (key, j) :: ms =>
    .node member [.leaf StringLiteral (String.ofList key), .leaf COLON ":", j.outline] ::
      memberOutlines ms

end

/-- The tree of a whole source, which holds one value or none. -/
def document (j? : Option Json) : Outline JsonRule :=
  .node JsonRule.document ((j?.map outline).toList ++ [.leaf EOI ""])

end Json

namespace JsonRule

variable {c : Context} {source : List Char} {s s' s'' : State JsonRule}

/-! ### Growing states -/

/-- The outline of nodes that were found in a source, latest first. -/
def found (source : List Char) (nodes : List (Match JsonRule)) : List (Outline JsonRule) :=
  Nested.outlineAll (· == WHITESPACE) (Match.nestedAll ⟨name⟩ source nodes.reverse)

theorem found_append (ns ns' : List (Match JsonRule)) :
    found source (ns' ++ ns) = found source ns ++ found source ns' := by
  rw [found, List.reverse_append, Match.nestedAll_append, Nested.outlineAll_append]
  rfl

/-- The state stands in the source where its offset says. -/
def Placed (source : List Char) (s : State JsonRule) : Prop := s.rest = source.drop s.pos

/-- From `s` to `s'` the text `w` was read, and nodes with the outlines `os` were found. -/
structure Grew (source : List Char) (s : State JsonRule) (w : List Char)
    (os : List (Outline JsonRule)) (s' : State JsonRule) : Prop where
  rest : s.rest = w ++ s'.rest
  pos : s'.pos = s.pos + w.length
  nodes : ∃ ns, s'.nodes = ns ++ s.nodes ∧ found source ns = os

theorem Grew.refl (s : State JsonRule) : Grew source s [] [] s := ⟨rfl, rfl, [], rfl, rfl⟩

theorem Grew.trans {w w' : List Char} {os os' : List (Outline JsonRule)} (h : Grew source s w os s')
    (h' : Grew source s' w' os' s'') : Grew source s (w ++ w') (os ++ os') s'' := by
  obtain ⟨ns, hn, hf⟩ := h.nodes
  obtain ⟨ns', hn', hf'⟩ := h'.nodes
  refine ⟨by rw [h.rest, h'.rest, List.append_assoc], ?_, ns' ++ ns, ?_, ?_⟩
  · rw [h'.pos, h.pos, List.length_append, Nat.add_assoc]
  · rw [hn', hn, List.append_assoc]
  · rw [found_append, hf, hf']

theorem Grew.placed {w : List Char} {os : List (Outline JsonRule)} (h : Grew source s w os s')
    (hs : Placed source s) : Placed source s' := by
  rw [Placed, h.pos, ← List.drop_drop, ← hs, h.rest, List.drop_left]

theorem Grew.rest_eq {w rest : List Char} {os : List (Outline JsonRule)} (h : Grew source s w os s')
    (hs : s.rest = w ++ rest) : s'.rest = rest :=
  List.append_cancel_left (h.rest.symm.trans hs)

theorem grew_token {r : JsonRule} (hr : isToken r = true) {w rest : List Char} (hp : Placed source s)
    (hs : s.rest = w ++ rest) :
    Grew source s w (if r == WHITESPACE then [] else [.leaf r (String.ofList w)])
      (s.token r w.length) := by
  have hterminal : (Vocabulary.mk name).isTerminal r = true := by
    cases r with
    | EOI | document | value | object | member | array | escape => cases hr
    | _ => decide
  have htext : (source.drop s.pos).take (s.pos + w.length - s.pos) = w := by
    rw [← hp, hs, Nat.add_sub_cancel_left, List.take_left]
  refine ⟨?_, rfl, [.node r s.pos (s.pos + w.length) []], rfl, ?_⟩
  · rw [hs]
    exact congrArg (w ++ ·) ((congrArg (List.drop w.length) hs).trans List.drop_left).symm
  · rw [found, List.reverse_singleton, Match.nestedAll, Match.nestedAll, Match.nested,
      if_pos hterminal, Nested.outlineAll, Nested.outlineAll, Nested.outline, List.append_nil]
    simp only [Span.token, htext]

theorem grew_skipped {b rest : List Char} (hp : Placed source s) (hs : s.rest = b ++ rest) :
    Grew source s b [] (skipped s b.length) := by
  cases b with
  | nil => exact .refl s
  | cons ch b => exact grew_token (r := WHITESPACE) rfl hp hs

/-- What the body of a production found becomes the parts of its node. -/
theorem Grew.close {r : JsonRule} (ht : (Vocabulary.mk name).isTerminal r = false) {w : List Char}
    {os : List (Outline JsonRule)} (h : Grew source { s with nodes := [] } w os s') :
    Grew source s w [.node r os] (s.close r true s') := by
  obtain ⟨ns, hns, hf⟩ := h.nodes
  refine ⟨h.rest, h.pos, [.node r s.pos s'.pos ns.reverse], ?_, ?_⟩
  · rw [State.close, if_pos rfl, hns, List.append_nil]
    rfl
  · rw [found, List.reverse_singleton, Match.nestedAll, Match.nestedAll, Match.nested,
      if_neg (by rw [ht]; exact Bool.false_ne_true), Nested.outlineAll, Nested.outlineAll,
      Nested.outline, List.append_nil, ← hf]
    rfl

/-! ### Yields -/

/-- Where `w` stands in front of `rest`, the task reads `w` and finds nodes with the outlines `os`. -/
def Yields (source : List Char) (c : Context) (t : Task JsonRule) (w rest : List Char)
    (os : List (Outline JsonRule)) : Prop :=
  ∀ s, Placed source s → s.rest = w ++ rest → ∃ s', grammar.Reads t c s (some s') ∧ Grew source s w os s'

/-- Where `cs` is left, the task fails. -/
def Refuses (c : Context) (t : Task JsonRule) (cs : List Char) : Prop :=
  ∀ s, s.rest = cs → grammar.Reads t c s none

section Yields

variable {e e₁ e₂ : Expr JsonRule} {w w₁ w₂ rest : List Char} {os os₁ os₂ : List (Outline JsonRule)}

theorem yields_gap (hc : c.IsPlain) (hw : Blank w) (hrest : StartsTight rest) :
    Yields source c (.gap true) w rest [] :=
  fun _ hp hs => ⟨_, reads_blanks hc hs hw hrest, grew_skipped hp hs⟩

theorem yields_token (hc : c.IsPlain) {r : JsonRule} (hr : isToken r = true)
    (hw : r ≠ WHITESPACE) (h : r.Takes w rest) :
    Yields source c (.part true (.ref r)) w rest [.leaf r (String.ofList w)] := by
  intro s hp hs
  have hgrew := grew_token hr hp hs
  rw [if_neg (by simpa using hw)] at hgrew
  refine ⟨s.token r w.length, .ref ((reads_token hr hc.keepsNodes).mpr ⟨w, ?_, ?_, rfl⟩), hgrew⟩
  · rw [hgrew.rest_eq hs, hs]
  · rw [hgrew.rest_eq hs]
    exact h

theorem refuses_token (hc : c.IsPlain) {r : JsonRule} (hr : isToken r = true) {cs : List Char}
    (h : r.Misses cs) : Refuses c (.part true (.ref r)) cs := by
  intro s hs
  exact .ref ((reads_token_none hr hc.keepsNodes).mpr (hs ▸ h))

theorem yields_group (h : Yields source c (.part true e) w rest os) :
    Yields source c (.part true (.group e)) w rest os := by
  intro s hp hs
  obtain ⟨s', h, hg⟩ := h s hp hs
  exact ⟨s', .group h, hg⟩

/-- Two parts with blanks between them. -/
theorem yields_cat (hc : c.IsPlain) {b : List Char}
    (h₁ : Yields source c (.part true e₁) w₁ (b ++ (w₂ ++ rest)) os₁) (hb : Blank b)
    (ht : StartsTight (w₂ ++ rest)) (h₂ : Yields source c (.part true e₂) w₂ rest os₂) :
    Yields source c (.part true (.cat e₁ e₂)) (w₁ ++ (b ++ w₂)) rest (os₁ ++ os₂) := by
  intro s hp hs
  rw [List.append_assoc, List.append_assoc] at hs
  obtain ⟨s₁, hr₁, hg₁⟩ := h₁ s hp hs
  obtain ⟨s₂, hr₂, hg₂⟩ := yields_gap hc hb ht s₁ (hg₁.placed hp) (hg₁.rest_eq hs)
  obtain ⟨s₃, hr₃, hg₃⟩ := h₂ s₂ (hg₂.placed (hg₁.placed hp)) (hg₂.rest_eq (hg₁.rest_eq hs))
  exact ⟨s₃, .cat hr₁ hr₂ hr₃, hg₁.trans (hg₂.trans hg₃)⟩

theorem yields_opt (h : Yields source c (.part true e) w rest os) :
    Yields source c (.part true (.opt e)) w rest os := by
  intro s hp hs
  obtain ⟨s', h, hg⟩ := h s hp hs
  exact ⟨s', .opt_some h, hg⟩

theorem yields_opt_nil (h : Refuses c (.part true e) rest) :
    Yields source c (.part true (.opt e)) [] rest [] :=
  fun s _ hs => ⟨s, .opt_none (h s hs), .refl s⟩

theorem yields_normal (hc : c.IsPlain) {r : JsonRule} (hr : grammar.rule r = ⟨.normal, e⟩)
    (ht : (Vocabulary.mk name).isTerminal r = false) (h : Yields source c (.part true e) w rest os) :
    Yields source c (.rule r) w rest [.node r os] := by
  intro s hp hs
  obtain ⟨s₁, h, hg⟩ := h { s with nodes := [] } hp hs
  exact ⟨_, (Grammar.reads_normal_some hr).mpr ⟨s₁, h, rfl⟩, hc.keepsNodes ▸ hg.close ht⟩

end Yields

/-! ### Lists -/

/-- What may follow a value: a blank, a comma, a closing bracket or the end. -/
def Stops (rest : List Char) : Prop :=
  ∀ ch ∈ rest.head?, isBlank ch = true ∨ ch = ',' ∨ ch = ']' ∨ ch = '}'

theorem Stops.blank_append {b rest : List Char} (hb : Blank b) (h : Stops rest) : Stops (b ++ rest) := by
  cases b with
  | nil => exact h
  | cons ch b =>
      intro ch' hch
      cases hch
      exact .inl (hb ch List.mem_cons_self)

theorem stops_comma (rest : List Char) : Stops (',' :: rest) := by
  intro ch hch
  cases hch
  exact .inr (.inl rfl)

/-- The text begins with a character that is no blank. -/
def Solid (m : List Char) : Prop := ∃ ch cs, m = ch :: cs ∧ isBlank ch = false

theorem Solid.startsTight {m : List Char} (h : Solid m) (rest : List Char) : StartsTight (m ++ rest) := by
  obtain ⟨ch, cs, rfl, hch⟩ := h
  intro ch' h'
  cases h'
  exact hch

theorem Solid.append {m : List Char} (h : Solid m) (rest : List Char) : Solid (m ++ rest) := by
  obtain ⟨ch, cs, rfl, hch⟩ := h
  exact ⟨ch, cs ++ rest, rfl, hch⟩

section Lists

variable {α : Type} {item : JsonRule} {out : α → Outline JsonRule} {as : List α} {a : α}
  {w rest : List Char} {r : Char}

/-- Without blanks at both ends the text is read as a part, in front of all that may follow. -/
def Padded (source : List Char) (c : Context) (e : Expr JsonRule) (o : Outline JsonRule)
    (w : List Char) : Prop :=
  ∃ p m q, Blank p ∧ Blank q ∧ Solid m ∧ w = p ++ (m ++ q) ∧
    ∀ rest, Stops rest → Yields source c (.part true e) m rest [o]

/-- A character that closes a list. -/
structure Closes (c : Context) (item : JsonRule) (r : Char) : Prop where
  not_comma : r ≠ ','
  not_blank : isBlank r = false
  stops : ∀ rest, Stops (r :: rest)
  refuses : ∀ rest, Refuses c (.part true (.ref item)) (r :: rest)

theorem Closes.startsTight (h : Closes c item r) (rest : List Char) : StartsTight (r :: rest) := by
  intro ch hch
  cases hch
  exact h.not_blank

theorem Closes.refuses_nextItem (hc : c.IsPlain) (h : Closes c item r) (rest : List Char) :
    Refuses c (.part true (nextItem item)) (r :: rest) := by
  intro s hs
  refine .group (.cat_left (refuses_token hc (r := COMMA) rfl (misses_fixed rfl ?_) s hs))
  intro ch hch
  cases hch
  exact h.not_comma

theorem yields_nextItem (hc : c.IsPlain) {b m : List Char} {o : Outline JsonRule} (hb : Blank b)
    (hm : Solid m) (h : Yields source c (.part true (.ref item)) m rest [o]) :
    Yields source c (.part true (nextItem item)) (',' :: (b ++ m)) rest [.leaf COMMA ",", o] :=
  yields_group (yields_cat hc (yields_token hc (r := COMMA) rfl (by decide) ((takes_fixed rfl).mpr rfl))
    hb (hm.startsTight rest) h)

/-- A first round and all that follow. -/
def Loops (source : List Char) (c : Context) (e : Expr JsonRule) (w rest : List Char)
    (os : List (Outline JsonRule)) : Prop :=
  ∀ s, Placed source s → s.rest = w ++ rest →
    ∃ s₁ s', grammar.Reads (.part true e) c s (some s₁) ∧
      grammar.Reads (.rounds true e) c s₁ (some s') ∧ Grew source s w os s'

/-- A comma in front of each. -/
def commas (os : List (Outline JsonRule)) : List (Outline JsonRule) :=
  os.flatMap fun o => [.leaf COMMA ",", o]

theorem intersperse_comma (o : Outline JsonRule) (os : List (Outline JsonRule)) :
    (o :: os).intersperse (.leaf COMMA ",") = o :: commas os := by
  induction os generalizing o with
  | nil => rfl
  | cons o' os ih => rw [List.intersperse_cons_cons, ih]; rfl

/-- The rounds after a comma read all parts up to the closing bracket; blanks after the last part are
left. -/
theorem loops_items (hc : c.IsPlain) (hr : Closes c item r)
    (h : Items (fun a w => Padded source c (.ref item) (out a) w) as w) {z : List Char}
    (hz : Blank z) : ∀ {b : List Char}, Blank b →
    ∃ t q, Blank q ∧ b ++ w = t ++ q ∧ ∀ rest,
      Loops source c (nextItem item) (',' :: t) (q ++ (z ++ r :: rest)) (commas (as.map out)) := by
  induction h with
  | @one a w ha =>
      intro b hb
      obtain ⟨p, m, q, hp, hq, hm, rfl, hy⟩ := ha
      refine ⟨(b ++ p) ++ m, q, hq, by simp, fun rest s hplaced hs => ?_⟩
      have hstops : Stops (q ++ (z ++ r :: rest)) := (Stops.blank_append hz (hr.stops rest)).blank_append hq
      obtain ⟨s₁, h₁, hg₁⟩ :=
        yields_nextItem hc (blank_append hb hp) hm (hy _ hstops) s hplaced hs
      -- the next round fails at the bracket, so the blanks before it are given back
      obtain ⟨s₂, h₂, hg₂⟩ := yields_gap hc (blank_append hq hz) (hr.startsTight rest) s₁
        (hg₁.placed hplaced) (by rw [hg₁.rest_eq hs, List.append_assoc])
      have hend := hr.refuses_nextItem hc rest s₂
        (hg₂.rest_eq (by rw [hg₁.rest_eq hs, List.append_assoc]))
      exact ⟨s₁, s₁, h₁, .rounds_end h₂ hend, hg₁⟩
  | @more a w u as w' ha hu _ ih =>
      intro b hb
      obtain ⟨p, m, q, hp, hq, hm, rfl, hy⟩ := ha
      obtain ⟨a', b', ha', hb', rfl⟩ := hu
      obtain ⟨t, q', hq', ht, hloop⟩ := ih hb'
      refine ⟨(b ++ p) ++ m ++ ((q ++ a') ++ ',' :: t), q', hq', ?_, fun rest s hplaced hs => ?_⟩
      · have : b ++ (p ++ (m ++ q) ++ (a' ++ ',' :: b' ++ w')) =
            b ++ p ++ m ++ (q ++ a') ++ ',' :: (b' ++ w') := by simp
        rw [this, ht]
        simp
      · have hqa := blank_append hq ha'
        have hs : s.rest = (',' :: ((b ++ p) ++ m)) ++
            ((q ++ a') ++ (',' :: t ++ (q' ++ (z ++ r :: rest)))) := by
          rw [hs]
          simp
        have hstops : Stops ((q ++ a') ++ (',' :: t ++ (q' ++ (z ++ r :: rest)))) :=
          Stops.blank_append hqa (stops_comma _)
        obtain ⟨s₁, h₁, hg₁⟩ :=
          yields_nextItem hc (blank_append hb hp) hm (hy _ hstops) s hplaced hs
        have htight : StartsTight (',' :: t ++ (q' ++ (z ++ r :: rest))) := by
          intro ch hch
          cases hch
          decide
        obtain ⟨s₂, h₂, hg₂⟩ := yields_gap hc hqa htight s₁ (hg₁.placed hplaced) (hg₁.rest_eq hs)
        obtain ⟨s₃, s', h₃, h₄, hg₃⟩ :=
          hloop rest s₂ (hg₂.placed (hg₁.placed hplaced)) (hg₂.rest_eq (hg₁.rest_eq hs))
        refine ⟨s₁, s', h₁, .round h₂ h₃ h₄, ?_⟩
        have hg := hg₁.trans (hg₂.trans hg₃)
        simpa [commas] using hg

theorem yields_items (hc : c.IsPlain) (hr : Closes c item r)
    (h : Items (fun a w => Padded source c (.ref item) (out a) w) as w) {z : List Char}
    (hz : Blank z) :
    ∃ p m q, Blank p ∧ Blank q ∧ Solid m ∧ w ++ z = p ++ (m ++ q) ∧ ∀ rest,
      Yields source c (.part true (items item)) m (q ++ r :: rest)
        ((as.map out).intersperse (.leaf COMMA ",")) := by
  cases h with
  | one ha =>
      obtain ⟨p, m, q, hp, hq, hm, rfl, hy⟩ := ha
      refine ⟨p, m ++ ((q ++ z) ++ []), [], hp, nofun, hm.append _, by simp, fun rest => ?_⟩
      have hstops : Stops ((q ++ z) ++ ([] ++ r :: rest)) :=
        Stops.blank_append (blank_append hq hz) (hr.stops rest)
      have hstar : Yields source c (.part true (.star (nextItem item))) [] (r :: rest) [] :=
        fun s _ hs => ⟨s, .star_none (hr.refuses_nextItem hc rest s hs), .refl s⟩
      exact yields_group
        (yields_cat hc (hy _ hstops) (blank_append hq hz) (hr.startsTight rest) hstar)
  | @more a w u as w' ha hu hitems =>
      obtain ⟨p, m, q, hp, hq, hm, rfl, hy⟩ := ha
      obtain ⟨a', b', ha', hb', rfl⟩ := hu
      obtain ⟨t, q', hq', ht, hloop⟩ := loops_items hc hr hitems hz hb'
      have hqa := blank_append hq ha'
      refine ⟨p, m ++ ((q ++ a') ++ ',' :: t), q' ++ z, hp, blank_append hq' hz, hm.append _, ?_,
        fun rest => ?_⟩
      · have : p ++ (m ++ q) ++ (a' ++ ',' :: b' ++ w') ++ z =
            p ++ m ++ (q ++ a') ++ ',' :: (b' ++ w') ++ z := by simp
        rw [this, ht]
        simp
      · have hstar : Yields source c (.part true (.star (nextItem item))) (',' :: t)
            ((q' ++ z) ++ r :: rest) (commas (as.map out)) := by
          intro s hplaced hs
          obtain ⟨s₁, s', h₁, h₂, hg⟩ := hloop rest s hplaced (by rw [hs, List.append_assoc q'])
          exact ⟨s', .star_some h₁ h₂, hg⟩
        rw [List.map_cons, intersperse_comma]
        refine yields_group (yields_cat hc (hy _ (Stops.blank_append hqa (stops_comma _))) hqa ?_ hstar)
        intro ch hch
        cases hch
        decide

theorem yields_listOf (opening closing : JsonRule) {l : Char} (hc : c.IsPlain)
    (hr : Closes c item r) (hopen : opening.fixedText? = some [l])
    (hclose : closing.fixedText? = some [r])
    (h : Listed l r (fun a w => Padded source c (.ref item) (out a) w) as w) :
    ∃ p m q, Blank p ∧ Blank q ∧ w = p ++ ((l :: m) ++ q) ∧
      ∀ rest, Yields source c (.part true (listOf opening item closing)) (l :: m) rest
        (bracketed (.leaf opening (String.ofList [l])) (.leaf closing (String.ofList [r]))
          (as.map out)) := by
  have hopening : ∀ cs, Yields source c (.part true (.ref opening)) [l] cs
      [.leaf opening (String.ofList [l])] := fun cs => by
    refine yields_token hc (body_of_fixedText? hopen).1 ?_ ((takes_fixed hopen).mpr rfl)
    rintro rfl
    cases hopen
  have hclosing : ∀ cs, Yields source c (.part true (.ref closing)) [r] cs
      [.leaf closing (String.ofList [r])] := fun cs => by
    refine yields_token hc (body_of_fixedText? hclose).1 ?_ ((takes_fixed hclose).mpr rfl)
    rintro rfl
    cases hclose
  cases h with
  | empty hu hv =>
      obtain ⟨a, b, ha, hb, rfl⟩ := hu
      obtain ⟨a', b', ha', hb', rfl⟩ := hv
      refine ⟨a, (b ++ a') ++ ([] ++ ([] ++ [r])), b', ha, hb', by simp, fun rest => ?_⟩
      have hnone : Refuses c (.part true (items item)) (r :: rest) :=
        fun s hs => .group (.cat_left (hr.refuses rest s hs))
      have hinner := yields_cat hc (yields_opt_nil hnone) (b := []) nofun (hr.startsTight rest)
        (hclosing rest)
      exact yields_group (yields_cat hc (hopening _) (blank_append hb ha') (hr.startsTight rest) hinner)
  | @items u _ m v hu hm hv =>
      obtain ⟨a, b, ha, hb, rfl⟩ := hu
      obtain ⟨a', b', ha', hb', rfl⟩ := hv
      obtain ⟨p, m', q, hp, hq, hsolid, hm', hitems⟩ := yields_items hc hr hm ha'
      refine ⟨a, (b ++ p) ++ (m' ++ (q ++ [r])), b', ha, hb', ?_, fun rest => ?_⟩
      · have : a ++ l :: b ++ (m ++ (a' ++ r :: b')) = a ++ l :: b ++ ((m ++ a') ++ r :: b') := by simp
        rw [this, hm']
        simp
      · have hinner := yields_cat hc (yields_opt (hitems rest)) hq (hr.startsTight rest)
          (hclosing rest)
        exact yields_group
          (yields_cat hc (hopening _) (blank_append hb hp) ((hsolid.append _).startsTight rest) hinner)

end Lists

/-! ### Values -/

/-- The rule that reads a value with this first character. -/
def dispatch (ch : Char) : Option JsonRule :=
  if ch.isDigit || ch = '-' then some NumberLiteral
  else if ch = '{' then some object
  else if ch = '[' then some array
  else if ch = '"' then some StringLiteral
  else if ch = 't' then some TRUE
  else if ch = 'f' then some FALSE
  else if ch = 'n' then some NULL
  else none

theorem mem_valueRules_of_dispatch {ch : Char} {r : JsonRule} (h : dispatch ch = some r) :
    r ∈ valueRules := by
  unfold dispatch at h
  repeat' split at h
  all_goals cases h
  all_goals decide

theorem refuses_normal {e : Expr JsonRule} {r : JsonRule} {cs : List Char}
    (hr : grammar.rule r = ⟨.normal, e⟩) (h : Refuses c (.part true e) cs) :
    Refuses c (.part true (.ref r)) cs :=
  fun s hs => .ref (.named_none hr nofun (h { s with nodes := [] } hs))

/-- Every alternative fails where the first character does not call for it. -/
theorem refuses_of_dispatch (hc : c.IsPlain) {r : JsonRule} (hr : r ∈ valueRules) {cs : List Char}
    (h : ∀ ch ∈ cs.head?, dispatch ch ≠ some r) : Refuses c (.part true (.ref r)) cs := by
  have hfixed : ∀ (r' : JsonRule) (a : Char) (u : List Char), r'.fixedText? = some (a :: u) →
      dispatch a = some r → Refuses c (.part true (.ref r')) cs := by
    intro r' a u hr' ha
    refine refuses_token hc (body_of_fixedText? hr').1 (misses_fixed hr' fun ch hch hcha => ?_)
    subst hcha
    exact h ch hch ha
  have hlist : ∀ (opening item closing : JsonRule), Refuses c (.part true (.ref opening)) cs →
      Refuses c (.part true (listOf opening item closing)) cs :=
    fun _ _ _ hopen s hs => .group (.cat_left (hopen s hs))
  simp only [valueRules, List.mem_cons, List.not_mem_nil, or_false] at hr
  rcases hr with rfl | rfl | rfl | rfl | rfl | rfl | rfl
  · exact refuses_normal rule_object (hlist _ _ _ (hfixed LBRACE '{' [] rfl rfl))
  · exact refuses_normal rule_array (hlist _ _ _ (hfixed LBRACK '[' [] rfl rfl))
  · refine refuses_token hc rfl (misses_string fun ch hch hq => h ch hch ?_)
    subst hq
    rfl
  · refine refuses_token hc rfl (misses_number fun ch hch => ?_)
    have hch := h ch hch
    unfold dispatch at hch
    split at hch
    next => exact absurd rfl hch
    next hd => simpa using hd
  · exact hfixed TRUE 't' _ rfl rfl
  · exact hfixed FALSE 'f' _ rfl rfl
  · exact hfixed NULL 'n' _ rfl rfl

theorem refuses_value (hc : c.IsPlain) {cs : List Char} (h : ∀ ch ∈ cs.head?, dispatch ch = none) :
    Refuses c (.part true (.ref value)) cs := by
  refine refuses_normal rule_value fun s hs => Grammar.reads_choice_none fun e he => ?_
  obtain ⟨r, hr, rfl⟩ := List.mem_map.mp he
  refine refuses_of_dispatch hc hr (fun ch hch hd => ?_) s hs
  rw [h ch hch] at hd
  cases hd

/-- A value is read by the alternative that its first character calls for. -/
theorem padded_of_dispatch (hc : c.IsPlain) {r : JsonRule} {ch : Char} {p m q : List Char}
    {o : Outline JsonRule} (hr : dispatch ch = some r) (hch : isBlank ch = false) (hp : Blank p)
    (hq : Blank q)
    (h : ∀ rest, Stops rest → Yields source c (.part true (.ref r)) (ch :: m) rest [o]) :
    Padded source c (.ref value) (.node value [o]) (p ++ ((ch :: m) ++ q)) := by
  refine ⟨p, ch :: m, q, hp, hq, ⟨ch, m, rfl, hch⟩, rfl, fun rest hrest s hplaced hs => ?_⟩
  have hchoice : Yields source c (.part true (.choice (valueRules.map .ref))) (ch :: m) rest [o] := by
    intro s hplaced hs
    obtain ⟨s', h, hg⟩ := h rest hrest s hplaced hs
    refine ⟨s', Grammar.reads_choice ?_ h fun e he hne => ?_, hg⟩
    · exact List.mem_map_of_mem (mem_valueRules_of_dispatch hr)
    · obtain ⟨r', hr', rfl⟩ := List.mem_map.mp he
      refine refuses_of_dispatch hc hr' (fun ch' hch' hd => hne ?_) s hs
      cases hch'
      rw [hr] at hd
      cases hd
      rfl
  obtain ⟨s', h, hg⟩ := yields_normal hc rule_value rfl hchoice s hplaced hs
  exact ⟨s', .ref h, hg⟩

theorem yields_ref {r : JsonRule} {w rest : List Char} {os : List (Outline JsonRule)}
    (h : Yields source c (.rule r) w rest os) : Yields source c (.part true (.ref r)) w rest os := by
  intro s hp hs
  obtain ⟨s', h, hg⟩ := h s hp hs
  exact ⟨s', .ref h, hg⟩

theorem closes_array (hc : c.IsPlain) : Closes c value ']' where
  not_comma := by decide
  not_blank := by decide
  stops rest ch hch := by cases hch; exact .inr (.inr (.inl rfl))
  refuses rest := refuses_value hc fun ch hch => by cases hch; rfl

theorem closes_object (hc : c.IsPlain) : Closes c member '}' where
  not_comma := by decide
  not_blank := by decide
  stops rest ch hch := by cases hch; exact .inr (.inr (.inr rfl))
  refuses rest := by
    refine refuses_normal rule_member fun s hs => .group (.cat_left ?_)
    refine refuses_token hc (r := StringLiteral) rfl (misses_string fun ch hch => ?_) s hs
    cases hch
    decide

def memberOutline (p : List Char × Json) : Outline JsonRule :=
  .node member [.leaf StringLiteral (String.ofList p.1), .leaf COLON ":", p.2.outline]

theorem memberOutlines_eq_map (ms : List (List Char × Json)) :
    memberOutlines ms = ms.map memberOutline := by
  induction ms with
  | nil => rfl
  | cons p ms ih =>
      obtain ⟨k, j⟩ := p
      rw [memberOutlines, ih]
      rfl

theorem outlines_eq_map (js : List Json) : outlines js = js.map outline := by
  induction js with
  | nil => rfl
  | cons j js ih => rw [outlines, ih, List.map_cons]

theorem padded_member (hc : c.IsPlain) {p : List Char × Json} {w : List Char}
    (h : Member (fun j w => Padded source c (.ref value) j.outline w) p w) :
    Padded source c (.ref member) (memberOutline p) w := by
  cases h with
  | @mk k u j w hk hu hw =>
      obtain ⟨a, b, ha, hb, rfl⟩ := hu
      obtain ⟨p, m, q, hp, hq, hm, rfl, hy⟩ := hw
      have hsolid : Solid k := by
        obtain ⟨us, _, rfl⟩ := hk
        exact ⟨'"', _, rfl, by decide⟩
      refine ⟨[], k ++ (a ++ ([':'] ++ ((b ++ p) ++ m))), q, nofun, hq, hsolid.append _, by simp,
        fun rest hrest => yields_ref (yields_normal hc rule_member rfl (yields_group ?_))⟩
      have hvalue := yields_cat hc
        (yields_token hc (r := COLON) rfl (by decide) ((takes_fixed rfl).mpr rfl)) (blank_append hb hp)
        (hm.startsTight rest) (hy rest hrest)
      refine yields_cat hc (yields_token hc (r := StringLiteral) rfl (by decide) (takes_string.mpr hk))
        ha (fun ch hch => ?_) hvalue
      cases hch
      decide

theorem dispatch_of_isNumber {w : List Char} (h : IsNumber w) :
    ∃ ch cs, w = ch :: cs ∧ dispatch ch = some NumberLiteral ∧ isBlank ch = false := by
  have hdigit : ∀ d : Char, d.isDigit = true → dispatch d = some NumberLiteral ∧ isBlank d = false := by
    intro d hd
    refine ⟨by rw [dispatch, hd]; rfl, Bool.eq_false_iff.mpr fun hb => ?_⟩
    simp only [isBlank, Bool.or_eq_true, decide_eq_true_eq] at hb
    rcases hb with ((rfl | rfl) | rfl) | rfl <;> revert hd <;> decide
  obtain ⟨m, i, f, x, hm, hi, _, _, rfl⟩ := h
  rcases hm with rfl | rfl
  · cases hi with
    | zero => exact ⟨'0', _, rfl, rfl, by decide⟩
    | nonzero hd _ _ => exact ⟨_, _, rfl, hdigit _ hd⟩
  · exact ⟨'-', _, rfl, rfl, by decide⟩

theorem stopsNumber_of_stops {rest : List Char} (h : Stops rest) : StopsNumber rest := by
  intro ch hch
  rcases h ch hch with hb | rfl | rfl | rfl
  · simp only [isBlank, Bool.or_eq_true, decide_eq_true_eq] at hb
    rcases hb with ((rfl | rfl) | rfl) | rfl <;> decide
  all_goals decide

theorem padded_literal (hc : c.IsPlain) {r : JsonRule} {ch : Char} {m : List Char}
    (hd : dispatch ch = some r) (hr : isToken r = true) (hw : r ≠ WHITESPACE)
    (hch : isBlank ch = false) (h : ∀ rest, Stops rest → r.Takes (ch :: m) rest) :
    Padded source c (.ref value) (.node value [.leaf r (String.ofList (ch :: m))]) (ch :: m) := by
  have hp : Padded source c _ _ ([] ++ ((ch :: m) ++ [])) :=
    padded_of_dispatch hc hd hch nofun nofun fun rest hrest => yields_token hc hr hw (h rest hrest)
  rwa [List.nil_append, List.append_nil] at hp

/-- Every value is read. -/
theorem padded_value (hc : c.IsPlain) {j : Json} {w : List Char} (h : j.Spells w) :
    Padded source c (.ref value) j.outline w := by
  refine Spells.induct (P := fun j w => Padded source c (.ref value) j.outline w) ?_ ?_ ?_ ?_ ?_ ?_ h
  · exact padded_literal hc (r := NULL) rfl rfl (by decide) (by decide)
      fun _ _ => (takes_fixed rfl).mpr rfl
  · intro b
    cases b with
    | false =>
        exact padded_literal hc (r := FALSE) rfl rfl (by decide) (by decide)
          fun _ _ => (takes_fixed rfl).mpr rfl
    | true =>
        exact padded_literal hc (r := TRUE) rfl rfl (by decide) (by decide)
          fun _ _ => (takes_fixed rfl).mpr rfl
  · intro w hw
    obtain ⟨ch, cs, rfl, hd, hch⟩ := dispatch_of_isNumber hw
    exact padded_literal hc hd rfl (by decide) hch
      fun _ hrest => takes_number hw (stopsNumber_of_stops hrest)
  · intro w hw
    have hw' := hw
    obtain ⟨us, _, rfl⟩ := hw'
    exact padded_literal hc (r := StringLiteral) rfl rfl (by decide) (by decide)
      fun _ _ => takes_string.mpr hw
  · intro js w hw
    obtain ⟨p, m, q, hp, hq, rfl, hy⟩ :=
      yields_listOf LBRACK RBRACK hc (closes_array hc) rfl rfl hw
    have := padded_of_dispatch hc (r := array) rfl (by decide) hp hq fun rest _ =>
      yields_ref (yields_normal hc rule_array rfl (hy rest))
    rw [outline, outlines_eq_map]
    exact this
  · intro ms w hw
    have hw : Listed '{' '}' (fun p w => Padded source c (.ref member) (memberOutline p) w) ms w :=
      hw.imp fun _ _ _ h => padded_member hc h
    obtain ⟨p, m, q, hp, hq, rfl, hy⟩ :=
      yields_listOf LBRACE RBRACE hc (closes_object hc) rfl rfl hw
    have := padded_of_dispatch hc (r := object) rfl (by decide) hp hq fun rest _ =>
      yields_ref (yields_normal hc rule_object rfl (hy rest))
    rw [outline, memberOutlines_eq_map]
    exact this

/-! ### Whole sources -/

theorem yields_endOfInput (hc : c.IsPlain) :
    Yields source c (.part true (.ref EOI)) [] [] [.leaf EOI ""] := by
  intro s _ hs
  have hleaf : grammar.Reads (.part true .endOfInput) c { s with nodes := [] }
      (some { s with nodes := [] }) := by
    refine .leaf ?_
    simp [Expr.leaf?, hs]
  refine ⟨_, .ref ((Grammar.reads_normal_some (e := .endOfInput) rfl).mpr ⟨_, hleaf, rfl⟩), ?_⟩
  refine ⟨rfl, rfl, [.node EOI s.pos s.pos []], ?_, ?_⟩
  · rw [State.close, hc.keepsNodes, if_pos rfl]
    rfl
  · simp only [found, List.reverse_singleton, Match.nestedAll, Match.nested, Nested.outlineAll,
      List.append_nil, show (Vocabulary.mk name).isTerminal EOI = true from by decide, if_true,
      Nested.outline, Span.token, Nat.sub_self, List.take_zero]
    rfl

theorem reads_document_of_yields (hc : c.IsPlain) {b w : List Char} {os : List (Outline JsonRule)}
    (hsource : source = b ++ w) (hb : Blank b) (ht : StartsTight w)
    (h : Yields source c (.part true (.cat (.opt (.ref value)) (.ref EOI))) w [] os) :
    ∃ s', grammar.Reads (.rule document) c (Grammar.initialState source) (some s') ∧
      found source s'.nodes = [.node document os] := by
  have hplaced : Placed source (Grammar.initialState source) := rfl
  have hrest : (Grammar.initialState source : State JsonRule).rest = b ++ (w ++ []) := by
    rw [List.append_nil]
    exact hsource
  have hstart : grammar.Reads (.part true .startOfInput) c (Grammar.initialState source)
      (some (Grammar.initialState source)) := .leaf rfl
  obtain ⟨s₁, h₁, hg₁⟩ := yields_gap hc hb (by rwa [List.append_nil]) _ hplaced hrest
  obtain ⟨s₂, h₂, hg₂⟩ := h s₁ (hg₁.placed hplaced) (hg₁.rest_eq hrest)
  refine ⟨_, (Grammar.reads_normal_some rule_document).mpr
    ⟨s₂, .group (.cat hstart h₁ h₂), rfl⟩, ?_⟩
  have hgrew : Grew source (Grammar.initialState source) (b ++ w) [.node document os]
      ((Grammar.initialState source).close document true s₂) := Grew.close (by decide) (hg₁.trans hg₂)
  obtain ⟨ns, hns, hf⟩ := hgrew.nodes
  rw [hc.keepsNodes, hns, ← hf]
  exact congrArg (found source) (List.append_nil ns)

/-- A JSON text is read as a whole source, and the tree is that of its derivation. -/
theorem reads_document_of_isText (hc : c.IsPlain) {j : Json} (h : j.IsText source) :
    ∃ s', grammar.Reads (.rule document) c (Grammar.initialState source) (some s') ∧
      found source s'.nodes = [Json.document (some j)] := by
  obtain ⟨a, v, b, ha, hv, hb, hsource⟩ := h
  obtain ⟨p, m, q, hp, hq, hm, rfl, hy⟩ := (padded_value hc hv : Padded source c _ _ _)
  have hrest : Stops ((q ++ b) ++ ([] ++ [])) := Stops.blank_append (blank_append hq hb) nofun
  refine reads_document_of_yields (w := m ++ ((q ++ b) ++ [])) hc ?_ (blank_append ha hp)
    (hm.startsTight _)
    (yields_cat hc (yields_opt (hy _ hrest)) (blank_append hq hb) nofun (yields_endOfInput hc))
  rw [hsource]
  simp

theorem reads_document_of_blank (hc : c.IsPlain) (h : Blank source) :
    ∃ s', grammar.Reads (.rule document) c (Grammar.initialState source) (some s') ∧
      found source s'.nodes = [Json.document none] :=
  reads_document_of_yields (w := [] ++ ([] ++ [])) hc (List.append_nil source).symm h nofun
    (yields_cat hc (yields_opt_nil (refuses_value hc nofun)) nofun nofun (yields_endOfInput hc))

theorem isPlain_initialContext (limit : Option Nat) (source : List Char) :
    (Grammar.initialContext limit source).IsPlain := ⟨rfl, rfl⟩

/-- What a parse that gives a tree has read, and the outline of the tree. -/
theorem outline_of_parse {limit : Option Nat} {m : Match JsonRule} {o : Outline JsonRule}
    (h : grammar.parse limit source = .ok [m])
    (hread : ∃ s', grammar.Reads (.rule document) (Grammar.initialContext limit source)
      (Grammar.initialState source) (some s') ∧ found source s'.nodes = [o]) :
    (m.nested ⟨name⟩ source).outline (· == WHITESPACE) = [o] := by
  obtain ⟨s', hs', hf⟩ := hread
  obtain ⟨s, hs, hm⟩ := Grammar.reads_of_parse _ h
  obtain rfl := Option.some.inj (hs.unique hs')
  rw [← hf, found, ← hm, Match.nestedAll, Match.nestedAll, Nested.outlineAll, Nested.outlineAll,
    List.append_nil]

end JsonRule

theorem Language.parseTree_of_reads (origin : String) {source : String} {s : State JsonRule}
    (h : JsonRule.grammar.Reads (.rule .document) (Grammar.initialContext none source.toList)
      (Grammar.initialState source.toList) (some s)) :
    (∃ t, json.parseTree origin source none = .ok t) ∨
      ∃ reason, json.parseTree origin source none = .error (.exhausted .parsing reason) := by
  by_cases hstop : ∃ why, json.grammar.parse none source.toList = .error (.abandoned why)
  · obtain ⟨why, hwhy⟩ := hstop
    right
    refine ⟨why.reason, ?_⟩
    simp only [Language.parseTree, hwhy]
  · left
    have hparse := Grammar.parse_of_reads json.grammar (fun why hwhy => hstop ⟨why, hwhy⟩) h
    obtain ⟨_, _, t, _, ht, _⟩ := Language.parseTree_of_parse origin hparse
    exact ⟨t, ht⟩

theorem Language.parseTree_of_isText (origin : String) {source : String} {j : Json}
    (hj : j.IsText source.toList) :
    (∃ t, json.parseTree origin source none = .ok t) ∨
      ∃ reason, json.parseTree origin source none = .error (.exhausted .parsing reason) := by
  have hc := JsonRule.isPlain_initialContext none source.toList
  obtain ⟨s, hread, _⟩ := JsonRule.reads_document_of_isText hc hj
  exact Language.parseTree_of_reads origin hread

/-- **JSON is recognised exactly.**  A source that no limit stops has a tree if and only if it is blank
or a JSON text, and without its blanks the tree is the one of every derivation of the source. -/
theorem Language.parseTree_json (origin source : String)
    (h : ∀ reason, json.parseTree origin source none ≠ .error (.exhausted .parsing reason)) :
    ((∃ t, json.parseTree origin source none = .ok t) ↔
      Blank source.toList ∨ ∃ j : Json, j.IsText source.toList) ∧
    ∀ t, json.parseTree origin source none = .ok t →
      ∃ x : Nested JsonRule, x.At t Tree.root ∧
        (Blank source.toList → x.outline (· == .WHITESPACE) = [Json.document none]) ∧
        ∀ j : Json, j.IsText source.toList → x.outline (· == .WHITESPACE) = [Json.document (some j)] := by
  have hc := JsonRule.isPlain_initialContext none source.toList
  refine ⟨⟨?_, ?_⟩, ?_⟩
  · rintro ⟨t, ht⟩
    obtain ⟨m, _, hp, _⟩ := Language.parseTree_spans ht
    obtain ⟨s, hs, _⟩ := Grammar.reads_of_parse _ hp
    exact JsonRule.isText_of_reads_document hc hs
  · intro hsource
    obtain ⟨s', hs'⟩ : ∃ s', JsonRule.grammar.Reads (.rule .document)
        (Grammar.initialContext none source.toList) (Grammar.initialState source.toList)
        (some s') := by
      rcases hsource with hb | ⟨j, hj⟩
      · exact (JsonRule.reads_document_of_blank hc hb).imp fun _ h => h.1
      · exact (JsonRule.reads_document_of_isText hc hj).imp fun _ h => h.1
    rcases Language.parseTree_of_reads origin hs' with ht | ⟨reason, hreason⟩
    · exact ht
    · exact absurd hreason (h reason)
  · intro t ht
    obtain ⟨m, _, hp, hn, _⟩ := Language.parseTree_spans ht
    refine ⟨m.nested ⟨JsonRule.name⟩ source.toList, ?_, ?_, ?_⟩
    · exact Nested.at_layout _ [] [] (by rw [List.append_nil]; exact hn)
    · exact fun hb => JsonRule.outline_of_parse hp (JsonRule.reads_document_of_blank hc hb)
    · exact fun j hj => JsonRule.outline_of_parse hp (JsonRule.reads_document_of_isText hc hj)

theorem Language.parseTree_json_array :
    ∃ t, json.parseTree "a.json" " [1, null]" none = .ok t ∧ ∃ x : Nested JsonRule,
      x.At t Tree.root ∧
        x.outline (· == .WHITESPACE) = [Json.document (some (.array [.number ['1'], .null]))] := by
  have hok : (json.parseTree "a.json" " [1, null]" none).toOption.isSome = true := by decide +kernel
  have hone : IsNumber ['1'] :=
    ⟨[], ['1'], [], [], .inl rfl, .nonzero rfl (by decide) nofun, .inl rfl, .inl rfl, rfl⟩
  have htext : (Json.array [.number ['1'], .null]).IsText " [1, null]".toList :=
    ⟨[' '], _, [], by decide, .array (.items ⟨[], [], nofun, nofun, rfl⟩
      (.more (.number hone) ⟨[], [' '], nofun, by decide, rfl⟩ (.one .null))
      ⟨[], [], nofun, nofun, rfl⟩), nofun, rfl⟩
  cases ht : json.parseTree "a.json" " [1, null]" none with
  | error f => rw [ht] at hok; cases hok
  | ok t =>
      obtain ⟨x, hx, _, hout⟩ := (Language.parseTree_json "a.json" " [1, null]"
        (fun reason he => by rw [ht] at he; cases he)).2 t ht
      exact ⟨t, rfl, x, hx, hout _ htext⟩

end ConcreteSyntax
