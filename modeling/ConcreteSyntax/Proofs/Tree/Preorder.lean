import ConcreteSyntax.Proofs.Tree.Builder

/-! # Arenas in pre-order

`t.Visits i is` says that the traversal from node `i` along the lists of children, each node before what
is below it, comes by the nodes `is` in this order.

An arena in pre-order (`Tree.IsPreorder`) is the traversal from its root: index after index.  Then nothing is
stored that is not linked, and every node but the root is linked once.  The arena of a nested tree is one
(`Tree.isPreorder_of_layout`).

* **Stretches** (`Nested.visits_layout`).  The nodes of a subtree follow each other without gap, so the
  traversal of a stretch is the range of its indices.
* **Links** (`Nested.perm_links_layout`).  All lists of children together hold every index of a stretch but
  the first, once. -/

namespace ConcreteSyntax

variable {R : Type}

/-! ### Traversals -/

namespace Tree

mutual

/-- The nodes from an id on, each before those below it. -/
inductive Visits (t : Tree R) : NodeId → List NodeId → Prop
  | token {i tok} : t.node? i = some (.token tok) → Visits t i [i]
  | production {i r cs is} : t.node? i = some (.production r cs) → VisitsAll t cs.toList is →
      Visits t i (i :: is)

/-- The nodes from several ids on, one after another. -/
inductive VisitsAll (t : Tree R) : List NodeId → List NodeId → Prop
  | nil : VisitsAll t [] []
  | cons {c cs is js} : Visits t c is → VisitsAll t cs js → VisitsAll t (c :: cs) (is ++ js)

end

/-- There is a path of links from one node down to another. -/
inductive Reaches (t : Tree R) (i : NodeId) : NodeId → Prop
  | refl : Reaches t i i
  | step {j n c} : Reaches t i j → t.node? j = some n → c ∈ n.children → Reaches t i c

theorem Reaches.trans {t : Tree R} {i j k : NodeId} (h : t.Reaches i j) (h' : t.Reaches j k) :
    t.Reaches i k := by
  induction h' with
  | refl => exact h
  | step _ hn hc ih => exact .step ih hn hc

mutual

theorem Visits.reaches {t : Tree R} : ∀ {i : NodeId} {is : List NodeId}, t.Visits i is →
    ∀ {j : NodeId}, j ∈ is → t.Reaches i j
  | _, _, .token _, _, hj => by
      rw [List.mem_singleton] at hj
      exact hj ▸ .refl
  | _, _, .production hn his, _, hj => by
      rcases List.mem_cons.mp hj with rfl | hj
      · exact .refl
      · obtain ⟨c, hc, hreach⟩ := VisitsAll.reaches his hj
        exact Reaches.trans (.step .refl hn (Array.mem_toList_iff.mp hc)) hreach

theorem VisitsAll.reaches {t : Tree R} : ∀ {cs is : List NodeId}, t.VisitsAll cs is →
    ∀ {j : NodeId}, j ∈ is → ∃ c ∈ cs, t.Reaches c j
  | _, _, .nil, _, hj => by cases hj
  | _, _, .cons hc hcs, _, hj => by
      rcases List.mem_append.mp hj with hj | hj
      · exact ⟨_, List.mem_cons_self, Visits.reaches hc hj⟩
      · obtain ⟨c, hc, hreach⟩ := VisitsAll.reaches hcs hj
        exact ⟨c, List.mem_cons_of_mem _ hc, hreach⟩

end

/-- The arena is its own traversal from the root, and what follows from it. -/
structure IsPreorder (t : Tree R) : Prop where
  /-- In the order of their indices the nodes are the traversal from the root. -/
  visits : t.Visits Tree.root ((List.range t.size).map NodeId.mk)
  /-- Every node is linked to the root. -/
  reaches : ∀ i : NodeId, i.index < t.size → t.Reaches Tree.root i
  /-- Every node but the root is a child of one production, and once. -/
  parent : ∀ i : NodeId, i ≠ Tree.root → i.index < t.size →
    ∃ p r cs, t.node? p = some (.production r cs) ∧ cs.toList.count i = 1 ∧
      ∀ q n, t.node? q = some n → i ∈ n.children → q = p
  /-- The root is nobody's child. -/
  root : ∀ q n, t.node? q = some n → Tree.root ∉ n.children
  /-- Children stand behind their parent, each behind the one before. -/
  increasing : ∀ i n, t.node? i = some n →
    (i :: n.children.toList).Pairwise fun a b => a.index < b.index
  /-- Tokens have no children. -/
  tokens : ∀ i n, t.node? i = some n → n.isToken = true → n.children = #[]

end Tree

/-! ### Stretches -/

/-- Ids with these indices. -/
def idsFrom (base n : Nat) : List NodeId := (List.range' base n).map NodeId.mk

theorem idsFrom_append (base m n : Nat) :
    idsFrom base m ++ idsFrom (base + m) n = idsFrom base (m + n) := by
  rw [idsFrom, idsFrom, idsFrom, ← List.map_append, List.range'_append_1]

theorem idsFrom_succ (base n : Nat) : idsFrom base (n + 1) = ⟨base⟩ :: idsFrom (base + 1) n := by
  rw [idsFrom, List.range'_succ, List.map_cons, idsFrom]

theorem mem_idsFrom {base n : Nat} {i : NodeId} :
    i ∈ idsFrom base n ↔ base ≤ i.index ∧ i.index < base + n := by
  unfold idsFrom
  constructor
  · intro h
    obtain ⟨k, hk, rfl⟩ := List.mem_map.mp h
    exact List.mem_range'_1.mp hk
  · intro h
    exact List.mem_map.mpr ⟨i.index, List.mem_range'_1.mpr h, rfl⟩

theorem nodup_idsFrom (base n : Nat) : (idsFrom base n).Nodup := by
  unfold idsFrom
  rw [List.Nodup, List.pairwise_map]
  exact (List.nodup_range' 1).imp fun hne he => hne (congrArg NodeId.index he)

namespace Nested

theorem size_pos (x : Nested R) : 0 < x.size := by
  cases x <;> simp [size]

mutual

/-- The traversal of a stretch in pre-order is the range of its indices. -/
theorem visits_layout {t : Tree R} : ∀ (x : Nested R) (before after : List (Node R)),
    t.nodes.toList = before ++ x.layout before.length ++ after →
      t.Visits ⟨before.length⟩ (idsFrom before.length x.size)
  | token tok, before, after, h => by
      have hnode : t.node? ⟨before.length⟩ = some (.token tok) := by
        rw [Tree.node?, ← Array.getElem?_toList, h, layout]
        simp
      exact .token hnode
  | production r xs, before, after, h => by
      have hnode : t.node? ⟨before.length⟩ =
          some (.production r (ids (before.length + 1) xs).toArray) := by
        rw [Tree.node?, ← Array.getElem?_toList, h, layout]
        simp
      have hall := visitsAll_layoutAll (t := t) xs
        (before ++ [.production r (ids (before.length + 1) xs).toArray]) after (by
          rw [h, layout, List.length_append]
          simp)
      rw [List.length_append, List.length_singleton] at hall
      rw [size, idsFrom_succ]
      exact .production hnode hall

theorem visitsAll_layoutAll {t : Tree R} : ∀ (xs : List (Nested R)) (before after : List (Node R)),
    t.nodes.toList = before ++ layoutAll before.length xs ++ after →
      t.VisitsAll (ids before.length xs) (idsFrom before.length (sizeAll xs))
  | [], _, _, _ => .nil
  | x :: xs, before, after, h => by
      have hx := visits_layout x before (layoutAll (before.length + x.size) xs ++ after) (by
        rw [h, layoutAll]
        simp)
      have hxs := visitsAll_layoutAll (t := t) xs (before ++ x.layout before.length) after (by
        rw [h, layoutAll, List.length_append, length_layout]
        simp)
      rw [List.length_append, length_layout] at hxs
      rw [ids, sizeAll, ← idsFrom_append]
      exact .cons hx hxs

end

/-! ### Links -/

/-- All lists of children, one after another. -/
def links (ns : List (Node R)) : List NodeId := ns.flatMap fun n => n.children.toList

theorem links_append (ns ns' : List (Node R)) : links (ns ++ ns') = links ns ++ links ns' :=
  List.flatMap_append

mutual

/-- In a stretch every index but the first is linked once. -/
theorem perm_links_layout : ∀ (base : Nat) (x : Nested R),
    (⟨base⟩ :: links (x.layout base)).Perm (idsFrom base x.size)
  | base, token _ => .refl _
  | base, production r xs => by
      rw [size, idsFrom_succ]
      exact (perm_links_layoutAll (base + 1) xs).cons ⟨base⟩

theorem perm_links_layoutAll : ∀ (base : Nat) (xs : List (Nested R)),
    (ids base xs ++ links (layoutAll base xs)).Perm (idsFrom base (sizeAll xs))
  | _, [] => .refl _
  | base, x :: xs => by
      have hx := perm_links_layout base x
      have hxs := perm_links_layoutAll (base + x.size) xs
      rw [ids, layoutAll, links_append, sizeAll, ← idsFrom_append]
      refine List.Perm.trans ?_ (hx.append hxs)
      -- the links inside `x` move before the ids of the other trees
      have hswap : (ids (base + x.size) xs ++ (links (x.layout base) ++
          links (layoutAll (base + x.size) xs))).Perm
          (links (x.layout base) ++ (ids (base + x.size) xs ++ links (layoutAll (base + x.size) xs))) := by
        rw [← List.append_assoc, ← List.append_assoc]
        exact List.perm_append_comm.append_right _
      exact hswap.cons ⟨base⟩

end

theorem pairwise_ids : ∀ (base : Nat) (xs : List (Nested R)),
    (ids base xs).Pairwise (fun i j => i.index < j.index) ∧
      ∀ i ∈ ids base xs, base ≤ i.index ∧ i.index < base + sizeAll xs
  | _, [] => ⟨.nil, by intro i hi; cases hi⟩
  | base, x :: xs => by
      obtain ⟨hpair, hmem⟩ := pairwise_ids (base + x.size) xs
      have hpos := x.size_pos
      rw [ids, sizeAll]
      refine ⟨List.pairwise_cons.mpr ⟨fun i hi => ?_, hpair⟩, fun i hi => ?_⟩
      · have := (hmem i hi).1
        simp only
        omega
      · rcases List.mem_cons.mp hi with rfl | hi
        · simp only
          omega
        · have := hmem i hi
          omega

mutual

/-- The children of a node in a stretch come behind it, in increasing order and before the stretch ends. -/
theorem children_layout : ∀ (base : Nat) (x : Nested R) (j : Nat) (n : Node R),
    (x.layout base)[j]? = some n →
      ((⟨base + j⟩ : NodeId) :: n.children.toList).Pairwise (fun a b => a.index < b.index) ∧
        ∀ c ∈ n.children, c.index < base + x.size
  | base, token tok, j, n, h => by
      obtain rfl : n = .token tok := List.mem_singleton.mp (List.mem_of_getElem? h)
      exact ⟨List.pairwise_singleton .., fun c hc => absurd hc (Array.not_mem_empty c)⟩
  | base, production r xs, 0, n, h => by
      obtain rfl : n = .production r (ids (base + 1) xs).toArray := (Option.some.inj h).symm
      obtain ⟨hpair, hmem⟩ := pairwise_ids (base + 1) xs
      rw [size]
      refine ⟨List.pairwise_cons.mpr ⟨fun c hc => (hmem c hc).1, hpair⟩, fun c hc => ?_⟩
      have := (hmem c (List.mem_toArray.mp hc)).2
      omega
  | base, production r xs, j + 1, n, h => by
      obtain ⟨hpair, hlt⟩ := children_layoutAll (base + 1) xs j n h
      rw [size]
      refine ⟨?_, fun c hc => ?_⟩
      · rwa [Nat.add_assoc, Nat.add_comm 1 j] at hpair
      · have := hlt c hc
        omega

theorem children_layoutAll : ∀ (base : Nat) (xs : List (Nested R)) (j : Nat) (n : Node R),
    (layoutAll base xs)[j]? = some n →
      ((⟨base + j⟩ : NodeId) :: n.children.toList).Pairwise (fun a b => a.index < b.index) ∧
        ∀ c ∈ n.children, c.index < base + sizeAll xs
  | _, [], _, _, h => by cases h
  | base, x :: xs, j, n, h => by
      rw [layoutAll] at h
      rw [sizeAll]
      rcases Nat.lt_or_ge j x.size with hj | hj
      · rw [List.getElem?_append_left (by rw [length_layout]; exact hj)] at h
        obtain ⟨hpair, hlt⟩ := children_layout base x j n h
        refine ⟨hpair, fun c hc => ?_⟩
        have := hlt c hc
        omega
      · rw [List.getElem?_append_right (by rw [length_layout]; exact hj), length_layout] at h
        obtain ⟨hpair, hlt⟩ := children_layoutAll (base + x.size) xs (j - x.size) n h
        refine ⟨?_, fun c hc => ?_⟩
        · rwa [Nat.add_assoc, Nat.add_sub_cancel' hj] at hpair
        · have := hlt c hc
          omega

end

theorem isForest_layout (x : Nested R) : IsForest (x.layout 0) := by
  constructor
  · intro i n hn c hc
    obtain ⟨hpair, hlt⟩ := children_layout 0 x i n hn
    have hafter := (List.pairwise_cons.mp hpair).1 c (Array.mem_toList_iff.mpr hc)
    have hbefore := hlt c hc
    simp only [Nat.zero_add] at hafter hbefore
    rw [length_layout]
    exact ⟨hafter, hbefore⟩
  · have hnodup := (perm_links_layout 0 x).nodup_iff.mpr (nodup_idsFrom 0 x.size)
    exact (List.nodup_cons.mp hnodup).2

end Nested

/-! ### Parents -/

section Parents

variable {ns : List (Node R)} (hnodup : (ns.flatMap fun n => n.children.toList).Nodup) {p q : Nat} {n m : Node R}
  {i : NodeId}

include hnodup

theorem parent_unique_of_nodup (hn : ns[p]? = some n) (hm : ns[q]? = some m) (hin : i ∈ n.children)
    (him : i ∈ m.children) : p = q := by
  have hdisjoint := List.pairwise_iff_getElem.mp (List.pairwise_flatMap.mp hnodup).2
  obtain ⟨hp, rfl⟩ := List.getElem?_eq_some_iff.mp hn
  obtain ⟨hq, rfl⟩ := List.getElem?_eq_some_iff.mp hm
  have hin := Array.mem_toList_iff.mpr hin
  have him := Array.mem_toList_iff.mpr him
  rcases Nat.lt_trichotomy p q with hlt | heq | hgt
  · exact absurd rfl (hdisjoint p q hp hq hlt i hin i him)
  · exact heq
  · exact absurd rfl (hdisjoint q p hq hp hgt i him i hin)

theorem count_children_of_nodup (hn : ns[p]? = some n) (hi : i ∈ n.children) :
    n.children.toList.count i = 1 := by
  have hchildren : n.children.toList.Nodup :=
    (List.pairwise_flatMap.mp hnodup).1 n (List.mem_of_getElem? hn)
  rw [hchildren.count, if_pos (Array.mem_toList_iff.mpr hi)]

end Parents

namespace Tree

/-- An arena that holds a nested tree in pre-order is its own traversal. -/
theorem isPreorder_of_layout {t : Tree R} {x : Nested R} (h : t.nodes.toList = x.layout 0) :
    t.IsPreorder := by
  have hsize : t.size = x.size := by
    rw [size, ← Array.length_toList, h, Nested.length_layout]
  have hforest : IsForest t.nodes.toList := h ▸ x.isForest_layout
  have hget : ∀ i n, t.node? i = some n → t.nodes.toList[i.index]? = some n := by
    intro i n hn
    rw [Array.getElem?_toList]
    exact hn
  have hvisits : t.Visits root (idsFrom 0 t.size) := by
    rw [hsize]
    exact x.visits_layout [] [] (by rw [List.append_nil]; exact h)
  refine ⟨?_, ?_, ?_, ?_, ?_, ?_⟩
  · rw [List.range_eq_range']
    exact hvisits
  · intro i hi
    exact hvisits.reaches (mem_idsFrom.mpr ⟨Nat.zero_le _, by omega⟩)
  · intro i hne hi
    -- the links are all indices but that of the root, so one of the nodes has `i` among its children
    have hlinked : i ∈ (⟨0⟩ :: Nested.links (x.layout 0) : List NodeId) :=
      (x.perm_links_layout 0).mem_iff.mpr (mem_idsFrom.mpr ⟨Nat.zero_le _, by omega⟩)
    obtain ⟨n, hn, hin⟩ := List.mem_flatMap.mp ((List.mem_cons.mp hlinked).resolve_left hne)
    obtain ⟨p, hp⟩ := List.mem_iff_getElem?.mp hn
    rw [← h] at hp
    have hin := Array.mem_toList_iff.mp hin
    cases n with
    | token tok => exact absurd hin (Array.not_mem_empty i)
    | production r cs =>
        refine ⟨⟨p⟩, r, cs, ?_, count_children_of_nodup hforest.nodup hp hin, fun q m hm him => ?_⟩
        · rw [node?, ← Array.getElem?_toList, hp]
        · have hqp := parent_unique_of_nodup hforest.nodup (hget q m hm) hp him hin
          cases q
          rw [← hqp]
  · intro q n hn hroot
    exact Nat.not_lt_zero _ (hforest.child_after q.index n (hget q n hn) root hroot).1
  · intro i n hn
    have hpair := (x.children_layout 0 i.index n (h ▸ hget i n hn)).1
    rwa [Nat.zero_add] at hpair
  · intro i n _ htok
    cases n with
    | token tok => rfl
    | production r cs => cases htok

end Tree

end ConcreteSyntax
