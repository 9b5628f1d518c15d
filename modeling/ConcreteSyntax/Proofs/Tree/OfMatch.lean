import ConcreteSyntax.Proofs.Grammar.Coverage
import ConcreteSyntax.Proofs.Tree.Builder
import ConcreteSyntax.Tree.OfMatch

/-! # The tree of a match

`m.nested v source` is the nested tree of a match, with every token cut out of the source by its own
offsets.  The walk with its frames, which links nodes as they come and asks one cursor for all places,
lays out exactly that tree in pre-order, as long as the terminals tile a part of the source: then the
cursor is never asked to go back.

What is said of a frame is said for all frames below it (`Pending.addAll_match`, `Pending.addAll_frame`).
A match takes its own stretch at the end of the arena and touches nothing before it but the children of
the frame's parent. -/

namespace ConcreteSyntax

variable {R : Type}

/-! ### The cursor -/

namespace Text.LineCursor

theorem advance_add (m n : Nat) (p : LineCursor) : advance (m + n) p = advance n (advance m p) := by
  induction m generalizing p with
  | zero => rw [Nat.zero_add]; rfl
  | succ m ih => rw [Nat.succ_add]; exact ih p.step

theorem rest_step (p : LineCursor) : p.step.rest = p.rest.tail := by
  unfold step
  split
  next h => rw [h]; rfl
  next h => rw [h]; split <;> rfl

theorem offset_step {p : LineCursor} (h : p.rest ≠ []) : p.step.offset = p.offset + 1 := by
  unfold step
  split
  next hr => exact absurd hr h
  next => split <;> rfl

theorem rest_advance (n : Nat) (p : LineCursor) : (advance n p).rest = p.rest.drop n := by
  induction n generalizing p with
  | zero => rfl
  | succ n ih => rw [advance, ih, rest_step, List.drop_tail]

theorem offset_advance {n : Nat} {p : LineCursor} (h : n ≤ p.rest.length) :
    (advance n p).offset = p.offset + n := by
  induction n generalizing p with
  | zero => rfl
  | succ n ih =>
      have hne : p.rest ≠ [] := by
        intro hr
        rw [hr] at h
        cases h
      rw [advance, ih (by rw [rest_step, List.length_tail]; omega), offset_step hne]
      omega

/-- The cursor at a character offset of a text. -/
def place (source : List Char) (n : Nat) : LineCursor := advance n (ofText source)

theorem rest_place (source : List Char) (n : Nat) : (place source n).rest = source.drop n :=
  rest_advance n (ofText source)

theorem advanceTo_place {source : List Char} {m n : Nat} (hmn : m ≤ n) (hn : n ≤ source.length) :
    (place source m).advanceTo n = place source n := by
  have hm : (place source m).offset = m := by
    rw [place, offset_advance (Nat.le_trans hmn hn)]
    exact Nat.zero_add m
  rw [advanceTo, hm, place, ← advance_add, Nat.add_sub_cancel' hmn]
  rfl

end Text.LineCursor

open Text (LineCursor)
open Text.LineCursor (place)

/-! ### Nested trees of matches -/

/-- The token of a terminal that covers a part of a source. -/
def Span.token (source : List Char) (x : Span R) : Token R :=
  { kind := x.kind
    text := String.ofList ((source.drop x.start).take (x.stop - x.start))
    line := (place source x.start).line
    column := (place source x.start).column }

namespace Match

mutual

/-- The nested tree of a match. -/
def nested (v : Vocabulary R) (source : List Char) : Match R → Nested R
  | .node r start stop children =>
    if v.isTerminal r then .token (Span.token source ⟨r, start, stop⟩)
    else .production r (nestedAll v source children)

def nestedAll (v : Vocabulary R) (source : List Char) : List (Match R) → List (Nested R)
  | [] => []
  | m :: ms => m.nested v source :: nestedAll v source ms

end

mutual

theorem tokens_nested (v : Vocabulary R) (source : List Char) : ∀ m : Match R,
    (m.nested v source).tokens = (m.spans v).map (Span.token source)
  | .node r start stop children => by
      rw [nested, spans]
      split
      · rfl
      · rw [Nested.tokens, tokens_nestedAll v source children]

theorem tokens_nestedAll (v : Vocabulary R) (source : List Char) : ∀ ms : List (Match R),
    Nested.tokensAll (nestedAll v source ms) = (spansAll v ms).map (Span.token source)
  | [] => rfl
  | m :: ms => by
      rw [nestedAll, Nested.tokensAll, tokens_nested v source m, tokens_nestedAll v source ms,
        spansAll, List.map_append]

end

theorem nestedAll_append (v : Vocabulary R) (source : List Char) (ms ms' : List (Match R)) :
    nestedAll v source (ms ++ ms') = nestedAll v source ms ++ nestedAll v source ms' := by
  induction ms with
  | nil => rfl
  | cons m ms ih => rw [List.cons_append, nestedAll, nestedAll, ih, List.cons_append]

end Match

/-! ### What the walk lays out -/

namespace Pending

variable {v : Vocabulary R} {source : List Char}

theorem addAll_nil (frames : List (Pending R)) (parent : Option NodeId) (b : Builder R)
    (p : LineCursor) : addAll v (⟨parent, []⟩ :: frames) b p = addAll v frames b p := by
  rw [addAll]

theorem addAll_terminal {r : R} (hv : v.isTerminal r = true) (start stop : Nat)
    (children ms : List (Match R)) (frames : List (Pending R)) (parent : Option NodeId)
    (b : Builder R) (p : LineCursor) :
    addAll v (⟨parent, .node r start stop children :: ms⟩ :: frames) b p =
      addAll v (⟨parent, ms⟩ :: frames)
        (b.push parent (.token ⟨r, String.ofList ((p.advanceTo start).rest.take (stop - start)),
          (p.advanceTo start).line, (p.advanceTo start).column⟩)).1 (p.advanceTo start) := by
  rw [addAll, if_pos hv]

theorem addAll_production {r : R} (hv : ¬ v.isTerminal r = true) (start stop : Nat)
    (children ms : List (Match R)) (frames : List (Pending R)) (parent : Option NodeId)
    (b : Builder R) (p : LineCursor) :
    addAll v (⟨parent, .node r start stop children :: ms⟩ :: frames) b p =
      addAll v (⟨some (b.push parent (.production r #[])).2, children⟩ :: ⟨parent, ms⟩ :: frames)
        (b.push parent (.production r #[])).1 p := by
  rw [addAll, if_neg hv]

mutual

/-- The next match of a frame is laid out below the frame's parent in pre-order. -/
theorem addAll_match : ∀ (m : Match R) (ms : List (Match R)) (frames : List (Pending R))
    (parent : Option NodeId) (b : Builder R) {lo hi o : Nat},
    Tiles lo (m.spans v) hi → hi ≤ source.length → o ≤ lo →
    (∀ p, parent = some p → p.index < b.nodes.size) →
    ∃ b' o', addAll v (⟨parent, m :: ms⟩ :: frames) b (place source o) =
        addAll v (⟨parent, ms⟩ :: frames) b' (place source o') ∧ o' ≤ hi ∧
      b'.nodes.toList = linked parent [⟨b.nodes.size⟩] b.nodes.toList ++
        (m.nested v source).layout b.nodes.size
  | .node r start stop children, ms, frames, parent, b, lo, hi, o, ht, hhi, ho, hp => by
      have hpush : ∀ n, (b.push parent n).1.nodes.toList =
          linked parent [⟨b.nodes.size⟩] b.nodes.toList ++ [n] := by
        intro n
        rw [Builder.toList_push, linked_append _ (by simpa using hp)]
      rw [Match.nested]
      rw [Match.spans] at ht
      split
      · next hv =>
        -- a terminal: the cursor moves to its start
        rw [if_pos hv] at ht
        obtain ⟨rfl, hle, rfl⟩ := ht
        have hplace := LineCursor.advanceTo_place ho (Nat.le_trans hle hhi)
        simp only at hplace
        refine ⟨(b.push parent (.token (Span.token source ⟨r, start, stop⟩))).1, start, ?_, hle,
          hpush _⟩
        rw [addAll_terminal hv]
        simp only [hplace, LineCursor.rest_place, Span.token]
      · next hv =>
        -- a production: it is pushed, and its parts get a frame of their own
        rw [if_neg hv] at ht
        have hsize := b.size_push parent (.production r #[])
        have hid := b.push_id parent (.production r #[])
        obtain ⟨b', o', he, ho', hn⟩ := addAll_frame children (⟨parent, ms⟩ :: frames)
          (some (b.push parent (.production r #[])).2) (b.push parent (.production r #[])).1 ht hhi ho
          (by
            intro p hpe
            cases hpe
            rw [hsize, hid]
            exact Nat.lt_succ_self _)
        refine ⟨b', o', (addAll_production hv ..).trans he, ho', ?_⟩
        have hlast := linked_last (linked parent [⟨b.nodes.size⟩] b.nodes.toList) r
          (Nested.ids (b.nodes.size + 1) (Match.nestedAll v source children))
        rw [length_linked, Array.length_toList] at hlast
        rw [hn, hsize, hpush, hid, hlast, Nested.layout]
        simp

/-- A frame is used up: all its matches are laid out below its parent, one after another. -/
theorem addAll_frame : ∀ (ms : List (Match R)) (frames : List (Pending R)) (parent : Option NodeId)
    (b : Builder R) {lo hi o : Nat},
    Tiles lo (Match.spansAll v ms) hi → hi ≤ source.length → o ≤ lo →
    (∀ p, parent = some p → p.index < b.nodes.size) →
    ∃ b' o', addAll v (⟨parent, ms⟩ :: frames) b (place source o) =
        addAll v frames b' (place source o') ∧ o' ≤ hi ∧
      b'.nodes.toList =
        linked parent (Nested.ids b.nodes.size (Match.nestedAll v source ms)) b.nodes.toList ++
          Nested.layoutAll b.nodes.size (Match.nestedAll v source ms)
  | [], frames, parent, b, lo, hi, o, ht, _, ho, _ => by
      refine ⟨b, o, addAll_nil .., Nat.le_trans ho ht.le, ?_⟩
      rw [Match.nestedAll, Nested.ids, Nested.layoutAll, linked_nil, List.append_nil]
  | m :: ms, frames, parent, b, lo, hi, o, ht, hhi, ho, hp => by
      rw [Match.spansAll] at ht
      obtain ⟨mid, ht₁, ht₂⟩ := tiles_append.mp ht
      obtain ⟨b₁, o₁, he₁, ho₁, hn₁⟩ :=
        addAll_match m ms frames parent b ht₁ (Nat.le_trans ht₂.le hhi) ho hp
      have hsize : b₁.nodes.size = b.nodes.size + (m.nested v source).size := by
        rw [← Array.length_toList, hn₁, List.length_append, length_linked, Nested.length_layout,
          Array.length_toList]
      obtain ⟨b₂, o₂, he₂, ho₂, hn₂⟩ := addAll_frame ms frames parent b₁ ht₂ hhi ho₁
        (fun p hpe => Nat.lt_of_lt_of_le (hp p hpe) (by rw [hsize]; exact Nat.le_add_right ..))
      refine ⟨b₂, o₂, he₁.trans he₂, ho₂, ?_⟩
      rw [hn₂, hn₁, hsize, Match.nestedAll, Nested.ids, Nested.layoutAll,
        linked_append _ (by simpa [length_linked] using hp), linked_linked, List.append_assoc]
      rfl

end

end Pending

/-- A match whose terminals tile a part of a source becomes the arena of its nested tree. -/
theorem Tree.ofMatches_singleton {v : Vocabulary R} {source : List Char} {m : Match R} {hi : Nat}
    (ht : Tiles 0 (m.spans v) hi) (hhi : hi ≤ source.length) :
    ∃ t, Tree.ofMatches v source [m] = some t ∧ t.nodes.toList = (m.nested v source).layout 0 := by
  obtain ⟨b, o, he, _, hn⟩ := Pending.addAll_match m [] [] none {} ht hhi (Nat.le_refl 0) nofun
  have hn : b.nodes.toList = (m.nested v source).layout 0 := hn
  have hpos : 0 < b.nodes.size := by
    rw [← Array.length_toList, hn, Nested.length_layout]
    cases m.nested v source <;> simp [Nested.size]
  have hall : Pending.addAll v [⟨none, [m]⟩] {} (.ofText source) = b := by
    refine Eq.trans he ?_
    rw [Pending.addAll_nil, Pending.addAll]
  refine ⟨⟨b.nodes, hpos⟩, ?_, hn⟩
  simp only [Tree.ofMatches, hall, Builder.finish, hpos, dif_pos]

end ConcreteSyntax
