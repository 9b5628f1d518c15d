import ConcreteSyntax.Tree

/-! # Trees with their nodes inside each other

`Nested` is a tree without indices.  `x.At t i` says that node `i` of the arena `t` and all that is
linked below it form the nested tree `x`; an id stands for at most one nested tree
(`Nested.At.unique`).

`x.layout base` lists the nodes of `x` in pre-order, as an arena holds them that gives the first of them
the index `base`.  An arena with such a stretch holds `x` there (`Nested.at_layout`).

`x.outline skip` is what remains of `x` without line and column and without the tokens of some kinds. -/

namespace ConcreteSyntax

variable {R : Type}

/-- A tree whose productions hold their children themselves. -/
inductive Nested (R : Type) where
  | token (t : Token R)
  | production (rule : R) (children : List (Nested R))

namespace Nested

mutual

/-- The number of nodes. -/
def size : Nested R → Nat
  | token _ => 1
  | production _ xs => sizeAll xs + 1

def sizeAll : List (Nested R) → Nat
  | [] => 0
  | x :: xs => x.size + sizeAll xs

end

mutual

/-- All tokens, from left to right. -/
def tokens : Nested R → List (Token R)
  | token t => [t]
  | production _ xs => tokensAll xs

def tokensAll : List (Nested R) → List (Token R)
  | [] => []
  | x :: xs => x.tokens ++ tokensAll xs

end

mutual

/-- The node of an id and what is linked below it form this tree. -/
def At (t : Tree R) : Nested R → NodeId → Prop
  | token tok, i => t.node? i = some (.token tok)
  | production r xs, i => ∃ cs, t.node? i = some (.production r cs) ∧ AllAt t xs cs.toList

/-- The nodes of some ids and what is linked below them form these trees, one each. -/
def AllAt (t : Tree R) : List (Nested R) → List NodeId → Prop
  | [], is => is = []
  | x :: xs, is => ∃ i is', is = i :: is' ∧ x.At t i ∧ AllAt t xs is'

end

mutual

/-- An id stands for one tree only. -/
theorem At.unique {t : Tree R} : ∀ {x y : Nested R} {i : NodeId}, x.At t i → y.At t i → x = y
  | token tok, y, i, hx, hy => by
      rw [At] at hx
      cases y with
      | token tok' =>
          rw [At, hx] at hy
          cases hy
          rfl
      | production r' ys =>
          rw [At] at hy
          obtain ⟨cs, hy, _⟩ := hy
          rw [hx] at hy
          cases hy
  | production r xs, y, i, hx, hy => by
      rw [At] at hx
      obtain ⟨cs, hx, hxs⟩ := hx
      cases y with
      | token tok' =>
          rw [At, hx] at hy
          cases hy
      | production r' ys =>
          rw [At] at hy
          obtain ⟨cs', hy, hys⟩ := hy
          rw [hx] at hy
          cases hy
          rw [AllAt.unique hxs hys]

theorem AllAt.unique {t : Tree R} : ∀ {xs ys : List (Nested R)} {is : List NodeId},
    AllAt t xs is → AllAt t ys is → xs = ys
  | [], ys, is, hx, hy => by
      rw [AllAt] at hx
      cases ys with
      | nil => rfl
      | cons y ys =>
          rw [AllAt, hx] at hy
          obtain ⟨i, is', hi, _⟩ := hy
          cases hi
  | x :: xs, ys, is, hx, hy => by
      rw [AllAt] at hx
      obtain ⟨i, is', rfl, hx, hxs⟩ := hx
      cases ys with
      | nil => rw [AllAt] at hy; cases hy
      | cons y ys =>
          rw [AllAt] at hy
          obtain ⟨j, js, hj, hy, hys⟩ := hy
          cases hj
          rw [At.unique hx hy, AllAt.unique hxs hys]

end

theorem exists_allAt {t : Tree R} {is : List NodeId} (h : ∀ i ∈ is, ∃ x : Nested R, x.At t i) :
    ∃ xs : List (Nested R), AllAt t xs is := by
  induction is with
  | nil => exact ⟨[], by rw [AllAt]⟩
  | cons i is ih =>
      obtain ⟨x, hx⟩ := h i List.mem_cons_self
      obtain ⟨xs, hxs⟩ := ih fun j hj => h j (List.mem_cons_of_mem i hj)
      exact ⟨x :: xs, by rw [AllAt]; exact ⟨i, is, rfl, hx, hxs⟩⟩

/-! ### Pre-order -/

/-- The indices of trees that stand one after another from `base` on. -/
def ids : Nat → List (Nested R) → List NodeId
  | _, [] => []
  | base, x :: xs => ⟨base⟩ :: ids (base + x.size) xs

mutual

/-- The nodes in pre-order, the first of them at index `base`. -/
def layout : Nat → Nested R → List (Node R)
  | _, token t => [.token t]
  | base, production r xs => .production r (ids (base + 1) xs).toArray :: layoutAll (base + 1) xs

/-- The nodes of several trees that stand one after another. -/
def layoutAll : Nat → List (Nested R) → List (Node R)
  | _, [] => []
  | base, x :: xs => layout base x ++ layoutAll (base + x.size) xs

end

mutual

theorem length_layout : ∀ (base : Nat) (x : Nested R), (x.layout base).length = x.size
  | _, token _ => rfl
  | base, production _ xs => by
      rw [layout, List.length_cons, length_layoutAll (base + 1) xs, size]

theorem length_layoutAll : ∀ (base : Nat) (xs : List (Nested R)),
    (layoutAll base xs).length = sizeAll xs
  | _, [] => rfl
  | base, x :: xs => by
      rw [layoutAll, List.length_append, length_layout base x, length_layoutAll _ xs, sizeAll]

end

mutual

theorem filterMap_layout : ∀ (base : Nat) (x : Nested R),
    (x.layout base).filterMap Node.token? = x.tokens
  | _, token _ => rfl
  | base, production _ xs => by
      rw [layout, List.filterMap_cons_none rfl, filterMap_layoutAll (base + 1) xs, tokens]

theorem filterMap_layoutAll : ∀ (base : Nat) (xs : List (Nested R)),
    (layoutAll base xs).filterMap Node.token? = tokensAll xs
  | _, [] => rfl
  | base, x :: xs => by
      rw [layoutAll, List.filterMap_append, filterMap_layout base x, filterMap_layoutAll _ xs,
        tokensAll]

end

mutual

/-- An arena with the nodes of a tree in pre-order holds the tree where they begin. -/
theorem at_layout {t : Tree R} : ∀ (x : Nested R) (before after : List (Node R)),
    t.nodes.toList = before ++ x.layout before.length ++ after → x.At t ⟨before.length⟩
  | token tok, before, after, h => by
      rw [At, Tree.node?, ← Array.getElem?_toList, h, layout]
      simp
  | production r xs, before, after, h => by
      rw [At]
      refine ⟨(ids (before.length + 1) xs).toArray, ?_, ?_⟩
      · rw [Tree.node?, ← Array.getElem?_toList, h, layout]
        simp
      · have h' := allAt_layoutAll (t := t) xs
          (before ++ [.production r (ids (before.length + 1) xs).toArray]) after
        rw [List.length_append, List.length_singleton] at h'
        refine h' ?_
        rw [h, layout]
        simp

theorem allAt_layoutAll {t : Tree R} : ∀ (xs : List (Nested R)) (before after : List (Node R)),
    t.nodes.toList = before ++ layoutAll before.length xs ++ after →
      AllAt t xs (ids before.length xs)
  | [], _, _, _ => by rw [AllAt, ids]
  | x :: xs, before, after, h => by
      rw [AllAt]
      refine ⟨_, _, rfl, ?_, ?_⟩
      · refine at_layout x before (layoutAll (before.length + x.size) xs ++ after) ?_
        rw [h, layoutAll]
        simp
      · have h' := allAt_layoutAll (t := t) xs (before ++ x.layout before.length) after
        rw [List.length_append, length_layout] at h'
        refine h' ?_
        rw [h, layoutAll]
        simp

end

end Nested

/-! ### Outlines -/

/-- A tree without indices and places. -/
inductive Outline (R : Type) where
  | leaf (kind : R) (text : String)
  | node (rule : R) (parts : List (Outline R))

namespace Nested

mutual

/-- A tree without places and without the tokens of some kinds: nothing is left of such a token. -/
def outline (skip : R → Bool) : Nested R → List (Outline R)
  | token t => if skip t.kind then [] else [.leaf t.kind t.text]
  | production r xs => [.node r (outlineAll skip xs)]

/-- Several trees without places and without the tokens of some kinds. -/
def outlineAll (skip : R → Bool) : List (Nested R) → List (Outline R)
  | [] => []
  | x :: xs => x.outline skip ++ outlineAll skip xs

end

theorem outlineAll_append (skip : R → Bool) (xs ys : List (Nested R)) :
    outlineAll skip (xs ++ ys) = outlineAll skip xs ++ outlineAll skip ys := by
  induction xs with
  | nil => rfl
  | cons x xs ih => rw [List.cons_append, outlineAll, outlineAll, ih, List.append_assoc]

end Nested

end ConcreteSyntax
