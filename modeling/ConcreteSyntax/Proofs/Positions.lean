import ConcreteSyntax.Proofs.Lossless
import ConcreteSyntax.Proofs.Tree.Addresses

/-! # Lines and columns of tokens

The place of a token is decided by the text before it alone.

* **Lines.**  One more than the line feeds before the token (`LineCursor.line_place`).
* **Columns.**  The characters of `lastLine`, which is what follows the last line feed of a text, or all
  of it (`LineCursor.column_place`).

One cursor gives all tokens their places, and it is asked for offsets that never go back, since the
tokens of a tree tile the source.  So the text before a token is that of the earlier tokens
(`Language.place_parseTree`), and a longer text never ends at an earlier place (`notAfter_append`). -/

namespace ConcreteSyntax

variable {R : Type}

/-! ### The end of a text -/

/-- What follows the last line feed of a text; all of it if there is none. -/
def lastLine (p : List Char) : List Char := (p.reverse.takeWhile (· ≠ '\n')).reverse

theorem lastLine_newline (p : List Char) : lastLine (p ++ ['\n']) = [] := by
  simp [lastLine]

theorem lastLine_concat {c : Char} (hc : c ≠ '\n') (p : List Char) :
    lastLine (p ++ [c]) = lastLine p ++ [c] := by
  simp [lastLine, hc]

theorem lastLine_append {w : List Char} (hw : '\n' ∉ w) (p : List Char) :
    lastLine (p ++ w) = lastLine p ++ w := by
  have hall : ∀ c ∈ w.reverse, decide (c ≠ '\n') = true := by
    intro c hc
    have hne : c ≠ '\n' := fun h => hw (h ▸ List.mem_reverse.mp hc)
    simp [hne]
  have hsplit : (w.reverse ++ p.reverse).takeWhile (· ≠ '\n') =
      w.reverse ++ p.reverse.takeWhile (· ≠ '\n') := List.takeWhile_append_of_pos hall
  unfold lastLine
  rw [List.reverse_append, hsplit]
  simp

/-- One text ends in an earlier line than another, or in the same line and not further right. -/
def NotAfter (p q : List Char) : Prop :=
  p.count '\n' < q.count '\n' ∨
    p.count '\n' = q.count '\n' ∧ (lastLine p).length ≤ (lastLine q).length

theorem notAfter_append (p w : List Char) : NotAfter p (p ++ w) := by
  unfold NotAfter
  rw [List.count_append]
  by_cases hw : '\n' ∈ w
  · have hpos : 0 < w.count '\n' := List.count_pos_iff.mpr hw
    left
    omega
  · have hzero : w.count '\n' = 0 := List.count_eq_zero_of_not_mem hw
    have hlen : (lastLine (p ++ w)).length = (lastLine p).length + w.length := by
      rw [lastLine_append hw, List.length_append]
    right
    omega

/-! ### The cursor -/

namespace Text.LineCursor

theorem place_succ (source : List Char) (n : Nat) : place source (n + 1) = (place source n).step :=
  advance_add n 1 (ofText source)

theorem take_succ_of_rest {source cs : List Char} {c : Char} {n : Nat}
    (h : (place source n).rest = c :: cs) : source.take (n + 1) = source.take n ++ [c] := by
  have hd : source.drop n = c :: cs := by rw [← rest_place]; exact h
  have hget : source[n]? = some c := by
    have h0 : (source.drop n)[0]? = some c := by rw [hd]; rfl
    rw [List.getElem?_drop, Nat.add_zero] at h0
    exact h0
  rw [List.take_add_one, hget]
  rfl

theorem take_succ_of_end {source : List Char} {n : Nat} (h : (place source n).rest = []) :
    source.take (n + 1) = source.take n := by
  have hd : source.drop n = [] := by rw [← rest_place]; exact h
  have hlen : source.length ≤ n := List.drop_eq_nil_iff.mp hd
  rw [List.take_of_length_le hlen, List.take_of_length_le (by omega)]

/-- The line and the column of the cursor at an offset. -/
theorem place_eq (source : List Char) (n : Nat) :
    (place source n).line = 1 + (source.take n).count '\n' ∧
      (place source n).column = (lastLine (source.take n)).length := by
  induction n with
  | zero => exact ⟨rfl, rfl⟩
  | succ n ih =>
      obtain ⟨hline, hcol⟩ := ih
      rw [place_succ]
      unfold step
      split
      next hr =>
        rw [take_succ_of_end hr]
        exact ⟨hline, hcol⟩
      next c cs hr =>
        rw [take_succ_of_rest hr]
        split
        next hc =>
          subst hc
          refine ⟨?_, by simp [lastLine_newline]⟩
          simp [hline]
          omega
        next hc =>
          refine ⟨?_, ?_⟩
          · simp [hline, hc]
          · simp [hcol, lastLine_concat hc]

theorem line_place (source : List Char) (n : Nat) :
    (place source n).line = 1 + (source.take n).count '\n' := (place_eq source n).1

theorem column_place (source : List Char) (n : Nat) :
    (place source n).column = (lastLine (source.take n)).length := (place_eq source n).2

end Text.LineCursor

/-! ### Tokens -/

theorem toList_join_text (ts : List (Token R)) :
    (String.join (ts.map Token.text)).toList = ts.flatMap fun tok => tok.text.toList := by
  rw [String.toList_join, List.flatMap_map]

/-- In a tiling, the text of the spans before a span is the source up to its start. -/
theorem Tiles.flatMap_before {source : List Char} {xs ys : List (Span R)} {x : Span R} {hi : Nat}
    (h : Tiles 0 (xs ++ x :: ys) hi) (hhi : hi ≤ source.length) :
    (xs.map (Span.token source)).flatMap (fun tok => tok.text.toList) = source.take x.start := by
  obtain ⟨mid, hbefore, hat, hle, hafter⟩ := tiles_append.mp h
  subst hat
  have hmid : x.start ≤ source.length := by
    have := hafter.le
    omega
  rw [List.flatMap_map, hbefore.flatMap_text hmid]
  simp

theorem Tiles.pairwise_start {lo hi : Nat} {xs : List (Span R)} (h : Tiles lo xs hi) :
    xs.Pairwise fun x y => x.start ≤ y.start := by
  induction xs generalizing lo with
  | nil => exact List.Pairwise.nil
  | cons x xs ih =>
      obtain ⟨rfl, hle, ht⟩ := h
      refine List.Pairwise.cons (fun y hy => ?_) (ih ht)
      obtain ⟨us, vs, rfl⟩ := List.append_of_mem hy
      obtain ⟨mid, hus, hat, _⟩ := tiles_append.mp ht
      have := hus.le
      omega

/-- The tokens of a tree are cut from the source by a tiling, and the arena lists them as the tree does
from left to right. -/
theorem Language.tokens_parseTree {l : Language} {origin source : String} {limit : Option Nat}
    {t : Tree l.Rules} (h : l.parseTree origin source limit = .ok t) :
    ∃ (x : Nested l.Rules) (ys : List (Span l.Rules)), x.At t Tree.root ∧ x.tokens = t.tokens ∧
      t.tokens = ys.map (Span.token source.toList) ∧ Tiles 0 ys source.toList.length := by
  obtain ⟨m, xs, _, hn, hm, ht, _⟩ := Language.parseTree_spans h
  obtain ⟨hat, htokens⟩ := Nested.at_root_of_layout hn
  refine ⟨m.nested l.vocabulary source.toList, m.spans l.vocabulary, hat, htokens, ?_, ?_⟩
  · rw [← htokens, Match.tokens_nested]
  · rw [hm]
    exact tiles_append.mpr ⟨_, ht, rfl, Nat.le_refl _, rfl⟩

/-- **Places are exact.**  The tokens of a tree stand in the arena from left to right.  Each of them has
the line and the column where the texts of all earlier ones end, so places never go back. -/
theorem Language.place_parseTree (l : Language) (origin source : String) (limit : Option Nat)
    (t : Tree l.Rules) (h : l.parseTree origin source limit = .ok t) :
    (∃ x : Nested l.Rules, x.At t Tree.root ∧ x.tokens = t.tokens) ∧
    (∀ before tok after, t.tokens = before ++ tok :: after →
      tok.line = 1 + (String.join (before.map Token.text)).toList.count '\n' ∧
      tok.column = (lastLine (String.join (before.map Token.text)).toList).length) ∧
    t.tokens.Pairwise fun a b => a.line < b.line ∨ a.line = b.line ∧ a.column ≤ b.column := by
  obtain ⟨x, ys, hx, hxt, hys, htiles⟩ := Language.tokens_parseTree h
  refine ⟨⟨x, hx, hxt⟩, ?_, ?_⟩
  · intro before tok after ht
    obtain ⟨us, vs', rfl, rfl, hvs⟩ := List.map_eq_append_iff.mp (hys.symm.trans ht)
    obtain ⟨y, vs, rfl, rfl, _⟩ := List.map_eq_cons_iff.mp hvs
    rw [toList_join_text, htiles.flatMap_before (Nat.le_refl _)]
    exact ⟨Text.LineCursor.line_place _ _, Text.LineCursor.column_place _ _⟩
  · rw [hys, List.pairwise_map]
    refine htiles.pairwise_start.imp fun {a b} hab => ?_
    have htake : source.toList.take b.start =
        source.toList.take a.start ++ (source.toList.drop a.start).take (b.start - a.start) := by
      rw [← List.take_add, Nat.add_sub_cancel' hab]
    have hplace := notAfter_append (source.toList.take a.start)
      ((source.toList.drop a.start).take (b.start - a.start))
    rw [← htake] at hplace
    unfold NotAfter at hplace
    simp only [Span.token, Text.LineCursor.line_place, Text.LineCursor.column_place]
    omega

theorem Language.place_parseTree_lines :
    ∃ t, json.parseTree "a.json" "[\"é\",\n\t1]" none = .ok t ∧
      (∀ before tok after, t.tokens = before ++ tok :: after →
        tok.line = 1 + (String.join (before.map Token.text)).toList.count '\n' ∧
        tok.column = (lastLine (String.join (before.map Token.text)).toList).length) ∧
      t.tokens.Pairwise fun a b => a.line < b.line ∨ a.line = b.line ∧ a.column ≤ b.column := by
  have hok : (json.parseTree "a.json" "[\"é\",\n\t1]" none).toOption.isSome = true := by
    decide +kernel
  cases ht : json.parseTree "a.json" "[\"é\",\n\t1]" none with
  | error f => rw [ht] at hok; cases hok
  | ok t => exact ⟨t, rfl, (Language.place_parseTree json "a.json" _ none t ht).2⟩

end ConcreteSyntax
