import ConcreteSyntax.Proofs.Document.Strategies
import ConcreteSyntax.Proofs.Tree.Preorder

/-! # The height of a tree

`x.height` is the height of a nested tree, by recursion.  The loop over an arena comes by the nodes in another
order, with the depth of each on its work list.

* **Pending work** (`Tree.Pending`).  What a work list still has to find: so many nodes, and the deepest of them at
  such a depth.  A round takes one node away and keeps the account (`Pending.round`), so the list is used up in as
  many rounds as there are nodes, and the deepest is found (`Pending.deepestWithin_eq`).
* **Paths** (`Tree.Path`).  No path down from a node has more nodes than the nested tree there is high
  (`Path.length_le`), and one has as many (`Nested.At.exists_path`). -/

namespace ConcreteSyntax

variable {R : Type}

/-! ### Nested trees -/

namespace Nested

mutual

/-- One for a token or a production without children, otherwise one more than the highest child. -/
def height : Nested R → Nat
  | token _ => 1
  | production _ xs => heightAll xs + 1

/-- The height of the highest of several trees; zero if there is none. -/
def heightAll : List (Nested R) → Nat
  | [] => 0
  | x :: xs => max x.height (heightAll xs)

end

theorem height_pos (x : Nested R) : 0 < x.height := by
  cases x with
  | token tok => exact Nat.one_pos
  | production r xs => exact Nat.succ_pos _

mutual

theorem height_le_size : ∀ x : Nested R, x.height ≤ x.size
  | token _ => Nat.le_refl 1
  | production _ xs => by
      rw [height, size]
      exact Nat.succ_le_succ (heightAll_le_sizeAll xs)

theorem heightAll_le_sizeAll : ∀ xs : List (Nested R), heightAll xs ≤ sizeAll xs
  | [] => Nat.le_refl 0
  | x :: xs => by
      have hx := height_le_size x
      have hxs := heightAll_le_sizeAll xs
      rw [heightAll, sizeAll]
      omega

end

variable {t : Tree R} {xs : List (Nested R)} {is : List NodeId}

/-- The tree of every child is among those of the children, and not higher than the highest. -/
theorem AllAt.exists_at_of_mem (h : AllAt t xs is) {i : NodeId} (hi : i ∈ is) :
    ∃ x : Nested R, x.At t i ∧ x.height ≤ heightAll xs := by
  induction xs generalizing is with
  | nil =>
      rw [AllAt] at h
      subst h
      cases hi
  | cons x xs ih =>
      rw [AllAt] at h
      obtain ⟨j, js, rfl, hx, hxs⟩ := h
      rw [heightAll]
      rcases List.mem_cons.mp hi with rfl | hi
      · exact ⟨x, hx, Nat.le_max_left ..⟩
      · obtain ⟨y, hy, hle⟩ := ih hxs hi
        exact ⟨y, hy, Nat.le_trans hle (Nat.le_max_right ..)⟩

end Nested

/-! ### Pending work -/

namespace Tree

/-- What a work list of nodes and their depths still has to find: the number of the nodes on it and below them, and the
depth of the deepest of these. -/
inductive Pending (t : Tree R) : List (NodeId × Nat) → Nat → Nat → Prop
  | nil : Pending t [] 0 0
  | cons {i x todo nodes deepest} (depth : Nat) : Nested.At t x i → Pending t todo nodes deepest →
      Pending t ((i, depth) :: todo) (x.size + nodes) (max (depth + x.height - 1) deepest)

namespace Pending

variable {t : Tree R} {todo : List (NodeId × Nat)} {nodes deepest : Nat}

/-- Children go on the list one below their parent; from the parent's depth on, the deepest of them is as deep as
they are high. -/
theorem push {ys : List (Nested R)} {cs : List NodeId} (hall : Nested.AllAt t ys cs)
    (h : t.Pending todo nodes deepest) (depth : Nat) :
    ∃ deepest', t.Pending (cs.foldl (fun todo c => (c, depth + 1) :: todo) todo)
        (Nested.sizeAll ys + nodes) deepest' ∧
      max depth deepest' = max (depth + Nested.heightAll ys) deepest := by
  induction ys generalizing cs todo nodes deepest with
  | nil =>
      rw [Nested.AllAt] at hall
      subst hall
      rw [Nested.sizeAll, Nested.heightAll, Nat.zero_add]
      exact ⟨deepest, h, rfl⟩
  | cons y ys ih =>
      rw [Nested.AllAt] at hall
      obtain ⟨c, cs, rfl, hy, hys⟩ := hall
      obtain ⟨deepest', hpending, hdeepest⟩ := ih hys (h.cons (depth + 1) hy)
      have hnodes : Nested.sizeAll ys + (y.size + nodes) = Nested.sizeAll (y :: ys) + nodes := by
        rw [Nested.sizeAll]
        omega
      rw [hnodes] at hpending
      refine ⟨deepest', hpending, ?_⟩
      rw [hdeepest, Nested.heightAll]
      omega

/-- One round takes one node away, and the deepest is that node or still to be found. -/
theorem round {i : NodeId} {depth : Nat} (h : t.Pending ((i, depth) :: todo) nodes deepest) :
    ∃ nodes' deepest', nodes = nodes' + 1 ∧ deepest = max depth deepest' ∧
      t.Pending ((((t.node? i).map Node.children).getD #[]).foldl
        (fun todo c => (c, depth + 1) :: todo) todo) nodes' deepest' := by
  cases h with
  | @cons _ x _ nodes deepest _ hx h =>
      cases x with
      | token tok =>
          rw [Nested.At] at hx
          refine ⟨nodes, deepest, Nat.add_comm .., rfl, ?_⟩
          rw [hx]
          exact h
      | production r ys =>
          rw [Nested.At] at hx
          obtain ⟨cs, hcs, hys⟩ := hx
          obtain ⟨deepest', hpending, hdeepest⟩ := h.push hys depth
          rw [Array.foldl_toList] at hpending
          refine ⟨Nested.sizeAll ys + nodes, deepest', ?_, ?_, ?_⟩
          · rw [Nested.size, Nat.add_right_comm]
          · rw [hdeepest, Nested.height]
            rfl
          · rw [hcs]
            exact hpending

/-- As many rounds as there are nodes use the work list up, and find the deepest. -/
theorem deepestWithin_eq (h : t.Pending todo nodes deepest) {rounds : Nat} (hrounds : nodes ≤ rounds)
    (best : Nat) : t.deepestWithin rounds todo best = some (max best deepest) := by
  induction rounds generalizing todo nodes deepest best with
  | zero =>
      cases h with
      | nil => rw [Tree.deepestWithin, Nat.max_zero]
      | @cons _ x =>
          have hpos := x.size_pos
          omega
  | succ rounds ih =>
      cases todo with
      | nil =>
          cases h
          rw [Tree.deepestWithin, Nat.max_zero]
      | cons next todo =>
          obtain ⟨i, depth⟩ := next
          obtain ⟨nodes', deepest', hnodes, hdeepest, h⟩ := h.round
          rw [Tree.deepestWithin, ih h (by omega), hdeepest, Nat.max_assoc]

end Pending

end Tree

theorem IsForest.deepestWithin_eq {t : Tree R} (h : IsForest t.nodes.toList) {x : Nested R}
    (hx : x.At t Tree.root) {rounds : Nat} (hrounds : t.size ≤ rounds) :
    t.deepestWithin rounds [(Tree.root, 1)] 0 = some x.height := by
  have hsize := Document.size_le_of_at_root ⟨fun _ => ""⟩ h hx
  have hpos := x.height_pos
  have hpending : t.Pending [(Tree.root, 1)] (x.size + 0) (max (1 + x.height - 1) 0) := .cons 1 hx .nil
  rw [hpending.deepestWithin_eq (Nat.le_trans hsize hrounds)]
  exact congrArg some (by omega)

/-! ### Paths -/

/-- The ids of a path down from a node along the links. -/
inductive Tree.Path (t : Tree R) : NodeId → List NodeId → Prop
  | stop {i n} : t.node? i = some n → Path t i [i]
  | down {i n c path} : t.node? i = some n → c ∈ n.children → Path t c path → Path t i (i :: path)

theorem Tree.Path.length_le {t : Tree R} {i : NodeId} {path : List NodeId} (h : t.Path i path)
    {x : Nested R} (hx : x.At t i) : path.length ≤ x.height := by
  induction h generalizing x with
  | stop hn => exact x.height_pos
  | @down i n c path hn hc _ ih =>
      cases x with
      | token tok =>
          rw [Nested.At, hn] at hx
          cases hx
          exact absurd hc (Array.not_mem_empty c)
      | production r xs =>
          rw [Nested.At, hn] at hx
          obtain ⟨cs, hcs, hxs⟩ := hx
          cases hcs
          obtain ⟨y, hy, hle⟩ := hxs.exists_at_of_mem (Array.mem_toList_iff.mpr hc)
          rw [List.length_cons, Nested.height]
          exact Nat.succ_le_succ (Nat.le_trans (ih hy) hle)

namespace Nested

mutual

theorem At.exists_path {t : Tree R} : ∀ {x : Nested R} {i : NodeId}, x.At t i →
    ∃ path, t.Path i path ∧ path.length = x.height
  | token tok, i, h => by
      rw [At] at h
      exact ⟨[i], .stop h, rfl⟩
  | production r xs, i, h => by
      rw [At] at h
      obtain ⟨cs, hcs, hxs⟩ := h
      rcases hxs.exists_path with rfl | ⟨c, path, hc, hpath, hlength⟩
      · exact ⟨[i], .stop hcs, rfl⟩
      · refine ⟨i :: path, .down hcs (Array.mem_toList_iff.mp hc) hpath, ?_⟩
        rw [List.length_cons, hlength, height]

theorem AllAt.exists_path {t : Tree R} : ∀ {xs : List (Nested R)} {is : List NodeId}, AllAt t xs is →
    xs = [] ∨ ∃ c path, c ∈ is ∧ t.Path c path ∧ path.length = heightAll xs
  | [], _, _ => .inl rfl
  | x :: xs, is, h => by
      rw [AllAt] at h
      obtain ⟨i, is, rfl, hx, hxs⟩ := h
      obtain ⟨path, hpath, hlength⟩ := hx.exists_path
      refine .inr ?_
      rcases hxs.exists_path with rfl | ⟨c, longest, hc, hlongest, hlengths⟩
      · refine ⟨i, path, List.mem_cons_self, hpath, ?_⟩
        rw [hlength, heightAll, heightAll, Nat.max_zero]
      · rw [heightAll, ← hlength, ← hlengths]
        rcases Nat.le_total longest.length path.length with hle | hle
        · exact ⟨i, path, List.mem_cons_self, hpath, (Nat.max_eq_left hle).symm⟩
        · exact ⟨c, longest, List.mem_cons_of_mem _ hc, hlongest, (Nat.max_eq_right hle).symm⟩

end

end Nested

/-! ### Trees of builders -/

/-- **The height is the true one.**  For a tree whose builder only used its own ids, in whatever order it linked
them, the loop ends within as many rounds as there are nodes.  It finds the height of the nested tree at the root,
which is the number of nodes on the longest path from there; what is linked to nothing does not count.  The height
is at least one and at most the number of nodes. -/
theorem Tree.height_of_grown {t : Tree R} (h : t.Grown) :
    (∀ rounds, t.size ≤ rounds → t.deepestWithin rounds [(root, 1)] 0 = some t.height) ∧
    (∃ x : Nested R, x.At t root ∧ t.height = x.height) ∧
    (∃ path, t.Path root path ∧ path.length = t.height) ∧
    (∀ path, t.Path root path → path.length ≤ t.height) ∧
    1 ≤ t.height ∧ t.height ≤ t.size := by
  obtain ⟨x, hx⟩ := h.isForest.exists_at t.size root (Nat.le_add_left _ _) t.size_pos
  have hloop : ∀ rounds, t.size ≤ rounds → t.deepestWithin rounds [(root, 1)] 0 = some x.height :=
    fun rounds hrounds => h.isForest.deepestWithin_eq hx hrounds
  have hheight : t.height = x.height := by
    rw [height, hloop t.size (Nat.le_refl _), Option.getD_some]
  have hsize := Document.size_le_of_at_root ⟨fun _ => ""⟩ h.isForest hx
  rw [hheight]
  exact ⟨hloop, ⟨x, hx, rfl⟩, hx.exists_path, fun path hpath => hpath.length_le hx, x.height_pos,
    Nat.le_trans x.height_le_size hsize⟩

/-- The longest path of a tree of six nodes, one of which is linked to nothing, has three. -/
theorem Tree.height_of_grown_loose : loose.Grown ∧ loose.height = 3 ∧
    (∀ rounds, 6 ≤ rounds → loose.deepestWithin rounds [(root, 1)] 0 = some 3) ∧
    (∃ path, loose.Path root path ∧ path.length = 3) ∧
    ∀ path, loose.Path root path → path.length ≤ 3 := by
  have hheight : loose.height = 3 := by decide
  obtain ⟨hloop, _, hlongest, hpaths, _⟩ := height_of_grown grown_loose
  rw [hheight] at hloop hlongest hpaths
  exact ⟨grown_loose, hheight, hloop, hlongest, hpaths⟩

end ConcreteSyntax
