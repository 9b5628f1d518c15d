import ConcreteSyntax.Proofs.Tree.Height

/-! # Builders that share their ids

An id is only an index, so a builder can be given the ids of another one.  Several builders work side by side
(`Workshop`), and a push may name an id that any of them gave out.

* **Links** (`IsLinked`).  A node is linked once at most, and never below a later one.  This holds in every workshop
  (`Workshop.Reachable.isLinked`): a push links nothing but the node it adds.
* **Loops.**  A foreign id can be the one that the builder is about to give out.  A production that is added
  under it becomes its own child, and nothing that walks the tree from there ends (`Workshop.exists_loop`).
* **Forests** (`IsLinked.isForest`).  Without such a loop the nodes are a forest.  Every walk of a forest ends, that
  of the height too (`IsForest.exists_deepestWithin`). -/

namespace ConcreteSyntax

open Document (Layout streamWithin walkWithin openNode ofTree ofTree?)

variable {R : Type}

/-! ### Workshops -/

/-- Builders that work side by side, and the ids that they gave out. -/
structure Workshop (R : Type) where
  builders : List (Builder R) := []
  ids : List NodeId := []

/-- What can be made of an empty workshop: new builders, and pushes of nodes without children under no parent or
under an id that any of the builders gave out. -/
inductive Workshop.Reachable : Workshop R → Prop
  | start : Reachable {}
  | new {w} : Reachable w → Reachable { w with builders := w.builders ++ [{}] }
  | push {w b} (k : Nat) (parent : Option NodeId) (n : Node R) : Reachable w → w.builders[k]? = some b →
      (∀ p, parent = some p → p ∈ w.ids) → n.children = #[] →
      Reachable ⟨w.builders.set k (b.push parent n).1, (b.push parent n).2 :: w.ids⟩

/-- No child comes before its parent, and no node is a child twice. -/
structure IsLinked (ns : List (Node R)) : Prop where
  not_before : ∀ (i : Nat) (n : Node R), ns[i]? = some n →
    ∀ c ∈ n.children, i ≤ c.index ∧ c.index < ns.length
  nodup : (ns.flatMap fun n => n.children.toList).Nodup

theorem IsLinked.index_lt {ns : List (Node R)} (h : IsLinked ns) {c : NodeId}
    (hc : c ∈ ns.flatMap fun n => n.children.toList) : c.index < ns.length := by
  obtain ⟨n, hn, hc⟩ := List.mem_flatMap.mp hc
  obtain ⟨i, hi⟩ := List.mem_iff_getElem?.mp hn
  exact (h.not_before i n hi c (Array.mem_toList_iff.mp hc)).2

theorem Builder.isLinked_push {b : Builder R} (hb : IsLinked b.nodes.toList) (parent : Option NodeId) {n : Node R}
    (hn : n.children = #[]) : IsLinked (b.push parent n).1.nodes.toList where
  not_before := by
    intro i m hm c hc
    rw [Builder.length_push]
    rcases Builder.mem_children_push hn hm hc with ⟨m', hm', hc'⟩ | ⟨_, rfl, hi⟩
    · have hlt := hb.not_before i m' hm' c hc'
      rw [Array.length_toList] at hlt
      exact ⟨hlt.1, Nat.lt_succ_of_lt hlt.2⟩
    · exact ⟨hi, Nat.lt_succ_self _⟩
  nodup := Builder.nodup_push hn parent (fun _ hc => hb.index_lt hc) hb.nodup

theorem Workshop.Reachable.isLinked {w : Workshop R} (hw : w.Reachable) :
    ∀ b ∈ w.builders, IsLinked b.nodes.toList := by
  induction hw with
  | start => intro b hb; cases hb
  | new _ ih =>
      intro b hb
      rcases List.mem_append.mp hb with hb | hb
      · exact ih b hb
      · obtain rfl := List.mem_singleton.mp hb
        refine ⟨?_, List.nodup_nil⟩
        intro i n hn
        cases hn
  | push k parent n _ hk _ hn ih =>
      intro b hb
      rcases List.mem_or_eq_of_mem_set hb with hb | rfl
      · exact ih b hb
      · exact Builder.isLinked_push (ih _ (List.mem_of_getElem? hk)) parent hn

/-- Where the node that a push adds is linked: below the parent, unless that is a token. -/
theorem Builder.mem_children_push_iff {b : Builder R} (hb : IsLinked b.nodes.toList) {parent : Option NodeId}
    {n : Node R} (hn : n.children = #[]) {i : Nat} {m : Node R} (hm : (b.push parent n).1.nodes[i]? = some m) :
    ⟨b.nodes.size⟩ ∈ m.children ↔ parent = some ⟨i⟩ ∧ m.isToken = false := by
  rw [← Array.getElem?_toList] at hm
  constructor
  · intro hc
    have htoken : m.isToken = false := by
      cases m with
      | token t => exact absurd hc (Array.not_mem_empty _)
      | production r cs => rfl
    rcases Builder.mem_children_push hn hm hc with ⟨m', hm', hc'⟩ | ⟨hparent, _, _⟩
    · have hlt := (hb.not_before i m' hm' _ hc').2
      rw [Array.length_toList] at hlt
      exact absurd hlt (Nat.lt_irrefl _)
    · exact ⟨hparent, htoken⟩
  · rintro ⟨rfl, htoken⟩
    rw [Builder.toList_push] at hm
    simp only [linked, List.foldl_cons, List.foldl_nil, List.getElem?_modify_eq] at hm
    obtain ⟨m', _, rfl⟩ := Option.map_eq_some_iff.mp hm
    cases m' with
    | token t => cases htoken
    | production r cs => exact Array.mem_push_self

/-! ### Forests -/

/-- Where no node is its own child, the nodes are a forest. -/
theorem IsLinked.isForest {ns : List (Node R)} (h : IsLinked ns)
    (hloop : ∀ (i : NodeId) (n : Node R), ns[i.index]? = some n → i ∉ n.children) : IsForest ns where
  child_after := by
    intro i n hn c hc
    obtain ⟨hle, hlt⟩ := h.not_before i n hn c hc
    refine ⟨Nat.lt_of_le_of_ne hle ?_, hlt⟩
    rintro rfl
    exact hloop c n hn hc
  nodup := h.nodup

theorem IsForest.exists_deepestWithin {t : Tree R} (h : IsForest t.nodes.toList) :
    ∃ height, t.deepestWithin t.size [(Tree.root, 1)] 0 = some height := by
  obtain ⟨x, hx⟩ := h.exists_at t.size Tree.root (Nat.le_add_left _ _) t.size_pos
  exact ⟨x.height, h.deepestWithin_eq hx (Nat.le_refl _)⟩

/-! ### Loops -/

theorem Tree.foldl_todo (cs : Array NodeId) (depth : Nat) (todo : List (NodeId × Nat)) :
    cs.foldl (fun todo c => (c, depth + 1) :: todo) todo =
      cs.toList.reverse.map (·, depth + 1) ++ todo := by
  simp

section Loops

variable {t : Tree R} {i : NodeId} {n : Node R}

theorem Tree.deepestWithin_loop (hi : t.node? i = some n) (hloop : i ∈ n.children) :
    ∀ (rounds : Nat) {todo : List (NodeId × Nat)} (best : Nat), i ∈ todo.map Prod.fst →
      t.deepestWithin rounds todo best = none := by
  intro rounds
  induction rounds with
  | zero =>
      intro todo best h
      cases todo with
      | nil => cases h
      | cons next todo => rw [deepestWithin]
  | succ rounds ih =>
      intro todo best h
      cases todo with
      | nil => cases h
      | cons next todo =>
          obtain ⟨j, depth⟩ := next
          rw [deepestWithin]
          refine ih _ ?_
          rw [foldl_todo, List.map_append, List.mem_append]
          rcases List.mem_cons.mp h with rfl | h
          · left
            simpa [hi] using hloop
          · exact .inr h

theorem Document.walkWithin_loop (hi : t.node? i = some n) (hloop : i ∈ n.children) (v : Vocabulary R) :
    ∀ (steps : Nat) {frames : List Frame} (p : Pen), (∃ f ∈ frames, i ∈ f.children) →
      walkWithin v t steps frames p = none := by
  intro steps
  induction steps with
  | zero =>
      intro frames p h
      cases frames with
      | nil => obtain ⟨f, hf, _⟩ := h; cases hf
      | cons f frames => rw [walkWithin]
  | succ steps ih =>
      intro frames p h
      cases frames with
      | nil => obtain ⟨f, hf, _⟩ := h; cases hf
      | cons f frames =>
          obtain ⟨g, hg, hc⟩ := h
          obtain ⟨children, first⟩ := f
          cases children with
          | nil =>
              rw [walkWithin]
              refine ih _ ?_
              rcases List.mem_cons.mp hg with rfl | hg
              · cases hc
              · exact ⟨g, hg, hc⟩
          | cons j js =>
              rw [walkWithin]
              by_cases hij : i = j
              · subst hij
                cases n with
                | token tok => exact absurd hloop (Array.not_mem_empty i)
                | production r cs =>
                    simp only [openNode, hi]
                    exact ih _ ⟨_, List.mem_cons_self, Array.mem_toList_iff.mpr hloop⟩
              · have hlater : ∃ f ∈ (⟨js, false⟩ :: frames : List Frame), i ∈ f.children := by
                  rcases List.mem_cons.mp hg with rfl | hg
                  · exact ⟨_, List.mem_cons_self, (List.mem_cons.mp hc).resolve_left hij⟩
                  · exact ⟨g, List.mem_cons_of_mem _ hg, hc⟩
                split
                · exact ih _ hlater
                · obtain ⟨f, hf, hc⟩ := hlater
                  exact ih _ ⟨f, List.mem_cons_of_mem _ hf, hc⟩

end Loops

namespace Workshop

/-! ### Trees from workshops -/

/-- **Children do not come before their parent.**  Nodes are pushed without children.  Whatever ids the builders of a
workshop take from each other, a push links the node it adds below the production of the parent's index, which the
builder holds or which is the node itself, and links nothing else.  So no child of a finished tree comes before its
parent, none has two parents, and none is a child twice.  If moreover no node is its own child, all children come
after their parents, the root is no child, the height is found and both strategies find all they write. -/
theorem links_of_reachable {w : Workshop R} (hw : w.Reachable) {b : Builder R} (hb : b ∈ w.builders) :
    (∀ parent n, n.children = #[] → ∀ i m, (b.push parent n).1.nodes[i]? = some m →
      (⟨b.nodes.size⟩ ∈ m.children ↔ parent = some ⟨i⟩ ∧ m.isToken = false) ∧
      ∀ c ∈ m.children, c = ⟨b.nodes.size⟩ ∨ ∃ m', b.nodes[i]? = some m' ∧ c ∈ m'.children) ∧
    ∀ t, b.finish = some t →
      (∀ i n, t.node? i = some n → ∀ c ∈ n.children, i.index ≤ c.index ∧ c.index < t.size ∧
        n.children.toList.count c = 1 ∧ ∀ j m, t.node? j = some m → c ∈ m.children → j = i) ∧
      ((∀ i n, t.node? i = some n → i ∉ n.children) →
        (∀ i n, t.node? i = some n → ∀ c ∈ n.children, i.index < c.index ∧ c ≠ Tree.root) ∧
        (∃ height, t.deepestWithin t.size [(Tree.root, 1)] 0 = some height) ∧
        ∀ v layout, (∃ p, streamWithin v layout t (2 * t.size) = some p) ∧
          ofTree? v t = some (ofTree v t)) := by
  have hlinked := hw.isLinked b hb
  refine ⟨fun parent n hn i m hm => ⟨Builder.mem_children_push_iff hlinked hn hm, fun c hc => ?_⟩,
    fun t ht => ?_⟩
  · rw [← Array.getElem?_toList] at hm
    rcases Builder.mem_children_push hn hm hc with ⟨m', hm', hc'⟩ | ⟨_, hc', _⟩
    · exact .inr ⟨m', by rwa [← Array.getElem?_toList], hc'⟩
    · exact .inl hc'
  rw [← Builder.nodes_of_finish ht] at hlinked
  have hget : ∀ i n, t.node? i = some n → t.nodes.toList[i.index]? = some n := by
    intro i n hn
    rw [Array.getElem?_toList]
    exact hn
  refine ⟨fun i n hn c hc => ?_, fun hloop => ?_⟩
  · obtain ⟨hle, hlt⟩ := hlinked.not_before i.index n (hget i n hn) c hc
    refine ⟨hle, hlt, count_children_of_nodup hlinked.nodup (hget i n hn) hc, fun j m hm hcm => ?_⟩
    have hji := parent_unique_of_nodup hlinked.nodup (hget j m hm) (hget i n hn) hcm hc
    cases j
    cases i
    exact congrArg NodeId.mk hji
  · have hforest : IsForest t.nodes.toList := hlinked.isForest fun i n hn => hloop i n (by
      rwa [Array.getElem?_toList] at hn)
    refine ⟨fun i n hn c hc => ?_, hforest.exists_deepestWithin, fun v layout => ?_⟩
    · obtain ⟨hlt, _⟩ := hforest.child_after i.index n (hget i n hn) c hc
      refine ⟨hlt, ?_⟩
      rintro rfl
      exact Nat.not_lt_zero _ hlt
    · obtain ⟨x, hx, hvalue?, hvalue⟩ := Document.ofTree?_eq (v := v) hforest
      have hsteps := x.steps_lt
      have hsize := Document.size_le_of_at_root v hforest hx
      exact ⟨⟨_, Document.streamWithin_eq hx layout (by omega)⟩, by rw [hvalue?, hvalue]⟩

/-- Ids of another builder name the nodes of the same index: a production, a token, and none. -/
theorem links_of_reachable_foreign :
    ∃ (w : Workshop String) (b : Builder String) (t : Tree String), w.Reachable ∧ b ∈ w.builders ∧
      b.finish = some t ∧ t.node? Tree.root = some (.production "r" #[⟨2⟩]) ∧ t.size = 4 ∧
      (∀ i n, t.node? i = some n → ∀ c ∈ n.children, i.index < c.index ∧ c ≠ Tree.root) ∧
      (∃ height, t.deepestWithin t.size [(Tree.root, 1)] 0 = some height) ∧
      ∀ v layout, (∃ p, streamWithin v layout t (2 * t.size) = some p) ∧ ofTree? v t = some (ofTree v t) := by
  let p : Builder String := ⟨#[.production "p" #[⟨1⟩], .production "q" #[⟨2⟩], .token ⟨"X", "x", 1, 0⟩]⟩
  let t : Tree String :=
    ⟨#[.production "r" #[⟨2⟩], .token ⟨"Y", "y", 1, 1⟩, .production "s" #[], .token ⟨"Z", "z", 1, 2⟩], by decide⟩
  have hp : Workshop.Reachable ⟨[p, {}], [⟨2⟩, ⟨1⟩, ⟨0⟩]⟩ :=
    .push 0 (some ⟨1⟩) (.token ⟨"X", "x", 1, 0⟩) (.push 0 (some ⟨0⟩) (.production "q" #[])
      (.push 0 none (.production "p" #[]) (.new (.new .start)) rfl (by intro p hp; cases hp) rfl)
      rfl (by rintro p ⟨⟩; decide) rfl) rfl (by rintro p ⟨⟩; decide) rfl
  have hw : Workshop.Reachable ⟨[p, ⟨t.nodes⟩], [⟨3⟩, ⟨2⟩, ⟨1⟩, ⟨0⟩, ⟨2⟩, ⟨1⟩, ⟨0⟩]⟩ :=
    .push 1 (some ⟨1⟩) (.token ⟨"Z", "z", 1, 2⟩) (.push 1 (some ⟨0⟩) (.production "s" #[])
      (.push 1 (some ⟨2⟩) (.token ⟨"Y", "y", 1, 1⟩)
        (.push 1 none (.production "r" #[]) hp rfl (by intro p hp; cases hp) rfl)
        rfl (by rintro p ⟨⟩; decide) rfl) rfl (by rintro p ⟨⟩; decide) rfl) rfl (by rintro p ⟨⟩; decide) rfl
  have hloop : ∀ i n, t.node? i = some n → i ∉ n.children := by
    rintro ⟨_ | _ | _ | _ | k⟩ n hn <;> simp [t, Tree.node?] at hn <;> subst hn <;> simp [Node.children]
  have hb : ⟨t.nodes⟩ ∈ [p, ⟨t.nodes⟩] := List.mem_cons_of_mem p List.mem_cons_self
  exact ⟨_, _, t, hw, hb, rfl, rfl, rfl, ((links_of_reachable hw hb).2 t rfl).2 hloop⟩

/-- The first node of a builder is its own child if it is added under the first id of another builder.  Then
children need not come after their parent, the height and the walk of one strategy never end, and the other
strategy misses a value. -/
theorem exists_loop :
    ∃ (w : Workshop String) (b : Builder String) (t : Tree String), w.Reachable ∧ b ∈ w.builders ∧
      b.finish = some t ∧ t.node? Tree.root = some (.production "a" #[Tree.root]) ∧
      (∀ rounds, t.deepestWithin rounds [(Tree.root, 1)] 0 = none) ∧
      ∀ v layout, (∀ steps, streamWithin v layout t steps = none) ∧ ofTree? v t = none := by
  let b : Builder String := ⟨#[.production "a" #[]]⟩
  let t : Tree String := ⟨#[.production "a" #[⟨0⟩]], by decide⟩
  have hw : Workshop.Reachable ⟨[b, ⟨t.nodes⟩], [⟨0⟩, ⟨0⟩]⟩ :=
    .push 1 (some ⟨0⟩) (.production "a" #[])
      (.push 0 none (.production "a" #[]) (.new (.new .start)) rfl (by intro p hp; cases hp) rfl)
      rfl (by rintro p ⟨⟩; decide) rfl
  have hroot : t.node? Tree.root = some (.production "a" #[Tree.root]) := rfl
  have hloop : Tree.root ∈ (Node.production "a" #[Tree.root]).children := by simp [Node.children]
  refine ⟨_, ⟨t.nodes⟩, t, hw, List.mem_cons_of_mem b List.mem_cons_self, rfl, hroot, fun rounds => ?_,
    fun v layout => ⟨fun steps => ?_, rfl⟩⟩
  · exact Tree.deepestWithin_loop hroot hloop rounds 0 List.mem_cons_self
  · exact Document.walkWithin_loop hroot hloop v steps _ ⟨_, List.mem_cons_self, List.mem_cons_self⟩

end Workshop

end ConcreteSyntax
