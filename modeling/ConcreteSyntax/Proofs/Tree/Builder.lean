import ConcreteSyntax.Proofs.Tree.Nested

/-! # Builders

What a builder's pushes make of its nodes.

* **Pushes** (`Builder.Grows`).  A builder that only ever adds tokens and productions, each under no
  parent or under an id it gave out itself.  `Tree.Grown` is said of the trees that such builders finish.
* **Forests** (`IsForest`).  Children come after their parent, and no node is a child twice.  Every push
  keeps this (`Builder.Grows.isForest`), so below every node there is a nested tree
  (`IsForest.exists_at`). -/

namespace ConcreteSyntax

variable {R : Type}

/-! ### Linking -/

/-- The nodes after some ids were linked below a parent. -/
def linked (parent : Option NodeId) (ids : List NodeId) (ns : List (Node R)) : List (Node R) :=
  match parent with
  | none => ns
  | some p => ns.modify p.index fun n => ids.foldl Node.addChild n

theorem length_linked (parent : Option NodeId) (ids : List NodeId) (ns : List (Node R)) :
    (linked parent ids ns).length = ns.length := by
  cases parent with
  | none => rfl
  | some p => exact List.length_modify ..

theorem linked_nil (parent : Option NodeId) (ns : List (Node R)) : linked parent [] ns = ns := by
  cases parent with
  | none => rfl
  | some p =>
      refine List.ext_getElem (List.length_modify ..) fun i _ _ => ?_
      simp [linked, List.getElem_modify]

theorem linked_linked (parent : Option NodeId) (is js : List NodeId) (ns : List (Node R)) :
    linked parent js (linked parent is ns) = linked parent (is ++ js) ns := by
  cases parent with
  | none => rfl
  | some p =>
      rw [linked, linked, linked, List.modify_modify_eq]
      congr 1
      funext n
      rw [List.foldl_append]
      rfl

theorem linked_append {parent : Option NodeId} (ids : List NodeId) {ns : List (Node R)}
    (hp : ∀ p, parent = some p → p.index < ns.length) (ns' : List (Node R)) :
    linked parent ids (ns ++ ns') = linked parent ids ns ++ ns' := by
  cases parent with
  | none => rfl
  | some p =>
      have hp := hp p rfl
      refine List.ext_getElem (by simp [length_linked]) fun i h₁ h₂ => ?_
      simp only [linked, List.getElem_modify, List.getElem_append, List.length_modify]
      split <;> split <;> first | rfl | omega

theorem foldl_addChild (r : R) (cs : Array NodeId) (ids : List NodeId) :
    ids.foldl Node.addChild (.production r cs) = .production r (cs ++ ids.toArray) := by
  induction ids generalizing cs with
  | nil => simp
  | cons i ids ih => rw [List.foldl_cons, Node.addChild, ih]; simp

theorem linked_last (ns : List (Node R)) (r : R) (ids : List NodeId) :
    linked (some ⟨ns.length⟩) ids (ns ++ [.production r #[]]) =
      ns ++ [.production r ids.toArray] := by
  refine List.ext_getElem (by simp [length_linked]) fun i h₁ h₂ => ?_
  simp only [linked, List.getElem_modify]
  split
  · next hi => subst hi; simp [foldl_addChild]
  · next hi =>
    have : i < ns.length := by simp at h₂; omega
    simp [List.getElem_append_left this]

theorem Builder.toList_push (b : Builder R) (parent : Option NodeId) (n : Node R) :
    (b.push parent n).1.nodes.toList = linked parent [⟨b.nodes.size⟩] (b.nodes.toList ++ [n]) := by
  cases parent with
  | none => simp [Builder.push, linked]
  | some p => simp [Builder.push, linked]

/-! ### Pushes -/

/-- A builder after pushes under no parent or under its own ids, and the ids it gave out.  Productions are pushed
without children and get them by later pushes. -/
inductive Builder.Grows : Builder R → List NodeId → Prop
  | start : Grows {} []
  | token {b ids} (parent : Option NodeId) (t : Token R) : Grows b ids →
      (∀ p, parent = some p → p ∈ ids) →
      Grows (b.push parent (.token t)).1 ((b.push parent (.token t)).2 :: ids)
  | production {b ids} (parent : Option NodeId) (r : R) : Grows b ids →
      (∀ p, parent = some p → p ∈ ids) →
      Grows (b.push parent (.production r #[])).1 ((b.push parent (.production r #[])).2 :: ids)

/-- The tree was finished by a builder that only used ids of its own, and to which productions were pushed without
children. -/
def Tree.Grown (t : Tree R) : Prop := ∃ b ids, Builder.Grows b ids ∧ b.finish = some t

/-- Children come after their parent, and no node is a child twice. -/
structure IsForest (ns : List (Node R)) : Prop where
  child_after : ∀ (i : Nat) (n : Node R), ns[i]? = some n →
    ∀ c ∈ n.children, i < c.index ∧ c.index < ns.length
  nodup : (ns.flatMap fun n => n.children.toList).Nodup

theorem flatMap_children_modify (i : NodeId) : ∀ (ns : List (Node R)) (k : Nat),
    ((ns.modify k (·.addChild i)).flatMap fun n => n.children.toList) =
        (ns.flatMap fun n => n.children.toList) ∨
      ((ns.modify k (·.addChild i)).flatMap fun n => n.children.toList).Perm
        (i :: ns.flatMap fun n => n.children.toList)
  | [], k => .inl (by rw [List.modify_nil])
  | n :: ns, 0 => by
      rw [List.modify_zero_cons]
      cases n with
      | token t => exact .inl rfl
      | production r cs =>
          refine .inr ?_
          simp only [List.flatMap_cons, Node.addChild, Node.children, Array.toList_push,
            List.append_assoc]
          exact List.perm_middle
  | n :: ns, k + 1 => by
      rw [List.modify_succ_cons]
      simp only [List.flatMap_cons]
      rcases flatMap_children_modify i ns k with h | h
      · exact .inl (by rw [h])
      · exact .inr ((h.append_left _).trans List.perm_middle)

theorem Node.mem_children_addChild {n : Node R} {i c : NodeId} (h : c ∈ (n.addChild i).children) :
    c ∈ n.children ∨ c = i := by
  cases n with
  | token t => exact .inl h
  | production r cs => exact Array.mem_push.mp h

/-- What a push can link: the new node, below the node of the parent's index, which may be the new node itself. -/
theorem Builder.mem_children_push {b : Builder R} {parent : Option NodeId} {n : Node R} (hn : n.children = #[])
    {i : Nat} {m : Node R} (hm : (b.push parent n).1.nodes.toList[i]? = some m) {c : NodeId}
    (hc : c ∈ m.children) :
    (∃ m', b.nodes.toList[i]? = some m' ∧ c ∈ m'.children) ∨
      parent = some ⟨i⟩ ∧ c = ⟨b.nodes.size⟩ ∧ i ≤ b.nodes.size := by
  rw [Builder.toList_push] at hm
  have hold : ∀ m', (b.nodes.toList ++ [n])[i]? = some m' → c ∈ m'.children →
      ∃ m', b.nodes.toList[i]? = some m' ∧ c ∈ m'.children := by
    intro m' hm' hc'
    rcases Nat.lt_or_ge i b.nodes.toList.length with hi | hi
    · rw [List.getElem?_append_left hi] at hm'
      exact ⟨m', hm', hc'⟩
    · rw [List.getElem?_append_right hi, List.getElem?_singleton] at hm'
      split at hm'
      · cases hm'
        rw [hn] at hc'
        exact absurd hc' (Array.not_mem_empty c)
      · cases hm'
  cases parent with
  | none => exact .inl (hold m hm hc)
  | some p =>
      simp only [linked, List.foldl_cons, List.foldl_nil, List.getElem?_modify] at hm
      obtain ⟨m', hm', rfl⟩ := Option.map_eq_some_iff.mp hm
      split at hc
      · next hi =>
        obtain hc | rfl := Node.mem_children_addChild hc
        · exact .inl (hold m' hm' hc)
        · have hlt := (List.getElem?_eq_some_iff.mp hm').1
          rw [List.length_append, List.length_singleton, Array.length_toList] at hlt
          exact .inr ⟨by rw [← hi], rfl, Nat.le_of_lt_succ hlt⟩
      · exact .inl (hold m' hm' hc)

/-- A push links no node twice. -/
theorem Builder.nodup_push {b : Builder R} {n : Node R} (hn : n.children = #[]) (parent : Option NodeId)
    (hlt : ∀ c ∈ b.nodes.toList.flatMap (fun n => n.children.toList), c.index < b.nodes.size)
    (hnodup : (b.nodes.toList.flatMap fun n => n.children.toList).Nodup) :
    ((b.push parent n).1.nodes.toList.flatMap fun n => n.children.toList).Nodup := by
  have hflat : ((b.nodes.toList ++ [n]).flatMap fun n => n.children.toList) =
      b.nodes.toList.flatMap fun n => n.children.toList := by
    simp [hn]
  rw [Builder.toList_push]
  cases parent with
  | none => exact hflat ▸ hnodup
  | some p =>
      simp only [linked, List.foldl_cons, List.foldl_nil]
      rcases flatMap_children_modify ⟨b.nodes.size⟩ (b.nodes.toList ++ [n]) p.index with h | h
      · rw [h, hflat]
        exact hnodup
      · rw [h.nodup_iff, hflat, List.nodup_cons]
        exact ⟨fun hc => Nat.lt_irrefl _ (hlt _ hc), hnodup⟩

theorem Builder.length_push (b : Builder R) (parent : Option NodeId) (n : Node R) :
    (b.push parent n).1.nodes.toList.length = b.nodes.size + 1 := by
  rw [Builder.toList_push, length_linked]
  simp

theorem Builder.isForest_push {b : Builder R} {parent : Option NodeId} {n : Node R}
    (hb : IsForest b.nodes.toList) (hp : ∀ p, parent = some p → p.index < b.nodes.size)
    (hn : n.children = #[]) : IsForest (b.push parent n).1.nodes.toList := by
  constructor
  · intro i m hm c hc
    rw [Builder.length_push]
    rcases Builder.mem_children_push hn hm hc with ⟨m', hm', hc'⟩ | ⟨hparent, rfl, _⟩
    · have hlt := hb.child_after i m' hm' c hc'
      rw [Array.length_toList] at hlt
      exact ⟨hlt.1, Nat.lt_succ_of_lt hlt.2⟩
    · exact ⟨hp _ hparent, Nat.lt_succ_self _⟩
  · refine Builder.nodup_push hn parent (fun c hc => ?_) hb.nodup
    obtain ⟨m, hm, hc⟩ := List.mem_flatMap.mp hc
    obtain ⟨i, hi⟩ := List.mem_iff_getElem?.mp hm
    exact (hb.child_after i m hi c (Array.mem_toList_iff.mp hc)).2

theorem Builder.size_push (b : Builder R) (parent : Option NodeId) (n : Node R) :
    (b.push parent n).1.nodes.size = b.nodes.size + 1 := by
  rw [← Array.length_toList, Builder.length_push]

theorem Builder.push_id (b : Builder R) (parent : Option NodeId) (n : Node R) :
    (b.push parent n).2 = ⟨b.nodes.size⟩ := by
  cases parent <;> rfl

/-- Every id that was given out names a node, and the nodes are a forest. -/
theorem Builder.Grows.isForest {b : Builder R} {ids : List NodeId} (h : b.Grows ids) :
    (∀ i ∈ ids, i.index < b.nodes.size) ∧ IsForest b.nodes.toList := by
  induction h with
  | start => exact ⟨nofun, ⟨nofun, List.nodup_nil⟩⟩
  | @token b ids parent t _ hp ih | @production b ids parent t _ hp ih =>
      refine ⟨fun i hi => ?_, Builder.isForest_push ih.2 (fun p hpe => ih.1 p (hp p hpe)) rfl⟩
      rw [Builder.size_push]
      rcases List.mem_cons.mp hi with rfl | hi
      · rw [Builder.push_id]
        exact Nat.lt_succ_self _
      · exact Nat.lt_succ_of_lt (ih.1 i hi)

theorem Builder.nodes_of_finish {b : Builder R} {t : Tree R} (h : b.finish = some t) : t.nodes = b.nodes := by
  unfold Builder.finish at h
  split at h
  · cases h
    rfl
  · cases h

theorem Tree.Grown.isForest {t : Tree R} (h : t.Grown) : IsForest t.nodes.toList := by
  obtain ⟨b, ids, hb, hf⟩ := h
  rw [Builder.nodes_of_finish hf]
  exact hb.isForest.2

/-- A root whose second child was added before the first one's own child, a production without
children, and a token that is linked to nothing. -/
def Tree.loose : Tree String where
  nodes := #[.production "unitContext" #[⟨1⟩, ⟨2⟩], .production "part" #[⟨4⟩, ⟨5⟩],
    .token ⟨"EOI", "", 2, 0⟩, .token ⟨"LOST", "?", 7, 7⟩, .token ⟨"STRING", "\"\\\t", 1, 0⟩,
    .production "Context" #[]]
  size_pos := by decide

theorem Tree.grown_loose : Tree.loose.Grown := by
  refine ⟨_, _, .production (some ⟨1⟩) "Context" (.token (some ⟨1⟩) ⟨"STRING", "\"\\\t", 1, 0⟩
    (.token none ⟨"LOST", "?", 7, 7⟩ (.token (some ⟨0⟩) ⟨"EOI", "", 2, 0⟩
      (.production (some ⟨0⟩) "part" (.production none "unitContext" .start nofun) ?_) ?_) nofun)
        ?_) ?_, rfl⟩
  all_goals intro p hp; cases hp; decide

/-! ### Nested trees in forests -/

/-- Below every node of a forest there is a nested tree. -/
theorem IsForest.exists_at {t : Tree R} (h : IsForest t.nodes.toList) :
    ∀ (k : Nat) (i : NodeId), t.size ≤ i.index + k → i.index < t.size → ∃ x : Nested R, x.At t i := by
  intro k
  induction k with
  | zero => intro i hk hi; omega
  | succ k ih =>
      intro i hk hi
      obtain ⟨n, hn⟩ : ∃ n, t.node? i = some n := ⟨t.nodes[i.index], Array.getElem?_eq_getElem hi⟩
      cases n with
      | token tok => exact ⟨.token tok, by rw [Nested.At]; exact hn⟩
      | production r cs =>
          have hcs : ∀ c ∈ cs.toList, ∃ x : Nested R, x.At t c := by
            intro c hc
            have := h.child_after i.index (.production r cs) (by
              rw [Array.getElem?_toList]; exact hn) c (Array.mem_toList_iff.mp hc)
            rw [Array.length_toList] at this
            exact ih c (by omega) this.2
          obtain ⟨xs, hxs⟩ := Nested.exists_allAt hcs
          exact ⟨.production r xs, by rw [Nested.At]; exact ⟨cs, hn, hxs⟩⟩

end ConcreteSyntax
