import ConcreteSyntax.Proofs.Grammar.Nodes
import ConcreteSyntax.Proofs.Tree.OfMatch

/-! # Addresses in a tree

An address is the list of the numbers of the children to go down to, from the root.

* `x.subtreeAt p` is the part of a nested tree at an address.
* An arena in pre-order holds, at every index, the part of its nested tree at some address
  (`Nested.exists_subtreeAt_of_layout`): no stored node is left out.
* A property that matches hand down to their parts holds at every address of the tree of a match
  (`Match.exists_of_subtreeAt`). -/

namespace ConcreteSyntax

variable {R : Type}

/-- The kind of a token or the rule of a production. -/
def Node.kind : Node R → R
  | token t => t.kind
  | production r _ => r

namespace Nested

/-- The kind of a token or the rule of a production. -/
def kind : Nested R → R
  | token t => t.kind
  | production r _ => r

/-- The children of a production; a token has none. -/
def children : Nested R → List (Nested R)
  | token _ => []
  | production _ xs => xs

/-- The part of a tree at an address. -/
def subtreeAt : Nested R → List Nat → Option (Nested R)
  | x, [] => some x
  | x, k :: p => x.children[k]?.bind fun y => y.subtreeAt p

@[simp] theorem subtreeAt_nil (x : Nested R) : x.subtreeAt [] = some x := by
  cases x <;> rfl

theorem subtreeAt_cons (x : Nested R) (k : Nat) (p : List Nat) :
    x.subtreeAt (k :: p) = x.children[k]?.bind fun y => y.subtreeAt p := by
  cases x <;> rfl

theorem subtreeAt_cons_eq_some {x y : Nested R} {k : Nat} {p : List Nat} :
    x.subtreeAt (k :: p) = some y ↔ ∃ z, x.children[k]? = some z ∧ z.subtreeAt p = some y := by
  rw [subtreeAt_cons, Option.bind_eq_some_iff]

theorem subtreeAt_token_eq_some {tok : Token R} {p : List Nat} {y : Nested R}
    (h : (token tok).subtreeAt p = some y) : y = token tok := by
  cases p with
  | nil =>
      rw [subtreeAt_nil] at h
      exact (Option.some.inj h).symm
  | cons k p =>
      obtain ⟨z, hz, _⟩ := subtreeAt_cons_eq_some.mp h
      cases hz

mutual

theorem exists_subtreeAt_of_mem_tokens {tok : Token R} : ∀ {x : Nested R}, tok ∈ x.tokens →
    ∃ p, x.subtreeAt p = some (token tok)
  | token t, h => by
      rw [tokens, List.mem_singleton] at h
      subst h
      exact ⟨[], subtreeAt_nil _⟩
  | production r xs, h => by
      rw [tokens] at h
      obtain ⟨k, x, p, hk, hp⟩ := exists_subtreeAt_of_mem_tokensAll h
      exact ⟨k :: p, subtreeAt_cons_eq_some.mpr ⟨x, hk, hp⟩⟩

theorem exists_subtreeAt_of_mem_tokensAll {tok : Token R} : ∀ {xs : List (Nested R)},
    tok ∈ tokensAll xs → ∃ (k : Nat) (x : Nested R) (p : List Nat),
      xs[k]? = some x ∧ x.subtreeAt p = some (token tok)
  | [], h => by
      rw [tokensAll] at h
      cases h
  | x :: xs, h => by
      rw [tokensAll] at h
      rcases List.mem_append.mp h with h | h
      · obtain ⟨p, hp⟩ := exists_subtreeAt_of_mem_tokens h
        exact ⟨0, x, p, rfl, hp⟩
      · obtain ⟨k, y, p, hk, hp⟩ := exists_subtreeAt_of_mem_tokensAll h
        exact ⟨k + 1, y, p, hk, hp⟩

end

/-! ### Arenas -/

theorem At.kind_eq {t : Tree R} {x : Nested R} {i : NodeId} (h : x.At t i) :
    (t.node? i).map Node.kind = some x.kind := by
  cases x with
  | token tok =>
      rw [At] at h
      rw [h]
      rfl
  | production r xs =>
      rw [At] at h
      obtain ⟨cs, h, _⟩ := h
      rw [h]
      rfl

theorem AllAt.kinds_eq {t : Tree R} {xs : List (Nested R)} {is : List NodeId} (h : AllAt t xs is) :
    is.map (fun i => (t.node? i).map Node.kind) = xs.map fun x => some x.kind := by
  induction xs generalizing is with
  | nil =>
      rw [AllAt] at h
      rw [h]
      rfl
  | cons x xs ih =>
      rw [AllAt] at h
      obtain ⟨i, is', rfl, hx, hxs⟩ := h
      rw [List.map_cons, List.map_cons, hx.kind_eq, ih hxs]

/-- An arena that is a tree in pre-order holds the tree at its root, with its tokens from left to right. -/
theorem at_root_of_layout {t : Tree R} {x : Nested R} (h : t.nodes.toList = x.layout 0) :
    x.At t Tree.root ∧ x.tokens = t.tokens := by
  refine ⟨at_layout x [] [] (by rw [List.append_nil]; exact h), ?_⟩
  rw [Tree.tokens, h, filterMap_layout]

mutual

/-- Each index of a stretch in pre-order holds the part of the tree at some address. -/
theorem exists_subtreeAt_of_layout {t : Tree R} : ∀ (x : Nested R) (before after : List (Node R)),
    t.nodes.toList = before ++ x.layout before.length ++ after → ∀ j, j < x.size →
      ∃ p y, x.subtreeAt p = some y ∧ y.At t ⟨before.length + j⟩
  | token tok, before, after, h, j, hj => by
      obtain rfl : j = 0 := by
        rw [size] at hj
        omega
      exact ⟨[], token tok, subtreeAt_nil _, at_layout _ before after h⟩
  | production r xs, before, after, h, 0, _ =>
      ⟨[], production r xs, subtreeAt_nil _, at_layout _ before after h⟩
  | production r xs, before, after, h, j + 1, hj => by
      have hxs := exists_subtreeAt_of_layoutAll (t := t) xs
        (before ++ [.production r (ids (before.length + 1) xs).toArray]) after (by
          rw [h, layout, List.length_append]
          simp) j (by rw [size] at hj; omega)
      obtain ⟨k, p, y, z, hk, hp, hat⟩ := hxs
      refine ⟨k :: p, y, subtreeAt_cons_eq_some.mpr ⟨z, hk, hp⟩, ?_⟩
      rw [List.length_append, List.length_singleton, Nat.add_assoc, Nat.add_comm 1 j] at hat
      exact hat

theorem exists_subtreeAt_of_layoutAll {t : Tree R} : ∀ (xs : List (Nested R))
    (before after : List (Node R)), t.nodes.toList = before ++ layoutAll before.length xs ++ after →
      ∀ j, j < sizeAll xs →
        ∃ (k : Nat) (p : List Nat) (y z : Nested R), xs[k]? = some z ∧ z.subtreeAt p = some y ∧
          y.At t ⟨before.length + j⟩
  | [], _, _, _, j, hj => by
      rw [sizeAll] at hj
      omega
  | x :: xs, before, after, h, j, hj => by
      rcases Nat.lt_or_ge j x.size with hlt | hge
      · obtain ⟨p, y, hp, hat⟩ := exists_subtreeAt_of_layout x before
          (layoutAll (before.length + x.size) xs ++ after) (by rw [h, layoutAll]; simp) j hlt
        exact ⟨0, p, y, x, rfl, hp, hat⟩
      · have hxs := exists_subtreeAt_of_layoutAll (t := t) xs (before ++ x.layout before.length) after
          (by rw [h, layoutAll, List.length_append, length_layout]; simp) (j - x.size)
          (by rw [sizeAll] at hj; omega)
        obtain ⟨k, p, y, z, hk, hp, hat⟩ := hxs
        refine ⟨k + 1, p, y, z, hk, hp, ?_⟩
        rw [List.length_append, length_layout, Nat.add_assoc, Nat.add_sub_cancel' hge] at hat
        exact hat

end

end Nested

/-! ### Matches -/

namespace Match

variable {v : Vocabulary R} {source : List Char}

theorem getElem?_nestedAll (ms : List (Match R)) (k : Nat) :
    (nestedAll v source ms)[k]? = ms[k]?.map (nested v source) := by
  induction ms generalizing k with
  | nil => rfl
  | cons m ms ih =>
      cases k with
      | zero => rfl
      | succ k => exact ih k

theorem kind_nested (m : Match R) : (m.nested v source).kind = m.rule := by
  cases m with
  | node r start stop ms =>
      rw [nested]
      split <;> rfl

theorem map_kind_nestedAll (ms : List (Match R)) :
    (nestedAll v source ms).map Nested.kind = ms.map rule := by
  induction ms with
  | nil => rfl
  | cons m ms ih => rw [nestedAll, List.map_cons, List.map_cons, kind_nested, ih]

theorem exists_nested_eq_token (source : List Char) {m : Match R} (hv : v.isTerminal m.rule = true) :
    ∃ tok, m.nested v source = .token tok ∧ tok.kind = m.rule ∧ tok.text.toList = m.text source := by
  cases m with
  | node r start stop ms =>
      rw [rule] at hv
      rw [nested, if_pos hv]
      exact ⟨_, rfl, rfl, String.toList_ofList⟩

theorem nested_eq_production (source : List Char) {m : Match R} (hv : v.isTerminal m.rule = false) :
    m.nested v source = .production m.rule (nestedAll v source m.parts) := by
  cases m with
  | node r start stop ms =>
      rw [rule] at hv
      rw [nested, if_neg (by rw [hv]; exact Bool.false_ne_true)]
      rfl

theorem exists_part_of_children {m : Match R} {k : Nat} {z : Nested R}
    (h : (m.nested v source).children[k]? = some z) :
    v.isTerminal m.rule = false ∧ ∃ m', m.parts[k]? = some m' ∧ z = m'.nested v source := by
  cases m with
  | node r start stop ms =>
      rw [nested] at h
      split at h
      · cases h
      · next hv =>
        rw [Nested.children, getElem?_nestedAll, Option.map_eq_some_iff] at h
        obtain ⟨m', hm', rfl⟩ := h
        exact ⟨Bool.eq_false_iff.mpr hv, m', hm', rfl⟩

/-- Where a match is no terminal, the arena holds a production of its rule over nodes of its parts. -/
theorem at_production {m : Match R} {t : Tree R} {i : NodeId} (hv : v.isTerminal m.rule = false)
    (h : (m.nested v source).At t i) : ∃ cs, t.node? i = some (.production m.rule cs) ∧
      cs.toList.map (fun j => (t.node? j).map Node.kind) = (m.parts.map rule).map some := by
  rw [nested_eq_production source hv, Nested.At] at h
  obtain ⟨cs, hcs, hall⟩ := h
  refine ⟨cs, hcs, ?_⟩
  rw [hall.kinds_eq, ← map_kind_nestedAll m.parts, List.map_map]
  rfl

theorem at_token {m : Match R} {t : Tree R} {i : NodeId} (hv : v.isTerminal m.rule = true)
    (h : (m.nested v source).At t i) :
    ∃ tok, t.node? i = some (.token tok) ∧ tok.kind = m.rule ∧ tok.text.toList = m.text source := by
  obtain ⟨tok, htok, hkind, htext⟩ := exists_nested_eq_token source hv
  rw [htok, Nested.At] at h
  exact ⟨tok, h, hkind, htext⟩

/-- What productions hand down to their parts holds at every address. -/
theorem exists_of_subtreeAt {P : Match R → Prop}
    (hP : ∀ m, P m → v.isTerminal m.rule = false → ∀ m' ∈ m.parts, P m') {p : List Nat} :
    ∀ {m : Match R} {y : Nested R}, P m → (m.nested v source).subtreeAt p = some y →
      ∃ m', P m' ∧ y = m'.nested v source := by
  induction p with
  | nil =>
      intro m y hm h
      rw [Nested.subtreeAt_nil] at h
      cases h
      exact ⟨m, hm, rfl⟩
  | cons k p ih =>
      intro m y hm h
      obtain ⟨z, hz, hy⟩ := Nested.subtreeAt_cons_eq_some.mp h
      obtain ⟨hv, m', hm', rfl⟩ := exists_part_of_children hz
      exact ih (hP m hm hv m' (List.mem_of_getElem? hm')) hy

end Match

end ConcreteSyntax
