import ConcreteSyntax.Document.Encode
import ConcreteSyntax.Proofs.Tree.Builder

/-! # Both strategies write one document

`x.value v` is the document of a nested tree, by recursion.  In an arena where children come after their
parent and no node is a child twice, both strategies write it for the nested tree at the root.

* **The walk** (`walk_frame`).  A frame whose children are nested trees writes them one after another and
  closes its production, in a number of steps that depends on the trees only.
* **The sweep** (`Swept`).  When the nodes from index `k` on have been visited, every one of them that is no
  child of another still has its value in its slot.  So no visit finds a slot empty: the sweep that gives
  up on an empty slot (`ofTree?`) gives the same value (`ofTree?_eq`).
* **Steps** (`objects_ofTree_le`).  A visit adds one object to those in the slots, so the document has at
  most as many objects as the arena has nodes.  This bounds the steps of the walk. -/

namespace ConcreteSyntax

open Document

variable {R : Type}

namespace Nested

mutual

/-- The document of a tree: a token as an object with its column, line, text and type, a production as
an object whose one member holds the array of its children. -/
def value (v : Vocabulary R) : Nested R → Value
  | token t =>
    .object [("c", .number t.column), ("l", .number t.line), ("text", .string t.text),
      ("type", .string (v.symbolicName t.kind))]
  | production r xs => .object [(v.ruleName r, .array (values v xs))]

def values (v : Vocabulary R) : List (Nested R) → List Value
  | [] => []
  | x :: xs => x.value v :: values v xs

end

mutual

/-- The steps a walk takes from a tree's opening to its end. -/
def steps : Nested R → Nat
  | token _ => 0
  | production _ xs => stepsAll xs + 1

/-- The steps a walk takes through several trees. -/
def stepsAll : List (Nested R) → Nat
  | [] => 0
  | x :: xs => x.steps + 1 + stepsAll xs

end

mutual

theorem steps_lt : ∀ x : Nested R, x.steps < 2 * x.size
  | token _ => by simp [steps, size]
  | production _ xs => by
      have := stepsAll_le xs
      rw [steps, size]
      omega

theorem stepsAll_le : ∀ xs : List (Nested R), stepsAll xs ≤ 2 * sizeAll xs
  | [] => Nat.le_refl 0
  | x :: xs => by
      have := steps_lt x
      have := stepsAll_le xs
      rw [stepsAll, sizeAll]
      omega

end

end Nested

namespace Document

variable {v : Vocabulary R} {t : Tree R}

/-! ### The walk -/

theorem putToken_eq_write (tok : Token R) (p : Pen) :
    putToken v tok p = ((Nested.token tok).value v).write p := by
  simp [Nested.value, Value.write, Value.writeMembers, putToken]

theorem write_production (r : R) (xs : List (Nested R)) (p : Pen) :
    ((Nested.production r xs).value v).write p =
      closeProduction (Value.writeElements (Nested.values v xs) true
        (p.beginObject.putKey (v.ruleName r) true).beginArray) := by
  simp [Nested.value, Value.write, Value.writeMembers, closeProduction]

/-- What is left to do after a frame was used up. -/
def afterFrame (frames : List Frame) (p : Pen) : Pen :=
  if frames.isEmpty then closeProduction p else (closeProduction p).endPart

mutual

theorem walk_child : ∀ (x : Nested R) (i : NodeId) (is : List NodeId) (first : Bool)
    (frames : List Frame) (p : Pen) (n : Nat), x.At t i →
    walkWithin v t (x.steps + 1 + n) (⟨i :: is, first⟩ :: frames) p =
      walkWithin v t n (⟨is, false⟩ :: frames) ((x.value v).write (p.separate first)).endPart
  | .token tok, i, is, first, frames, p, n, h => by
      rw [Nested.At] at h
      rw [Nested.steps, Nat.zero_add, Nat.add_comm, walkWithin]
      simp only [openNode, h]
      rw [putToken_eq_write]
  | .production r xs, i, is, first, frames, p, n, h => by
      rw [Nested.At] at h
      obtain ⟨cs, h, hxs⟩ := h
      rw [show (Nested.production r xs).steps + 1 + n = (Nested.stepsAll xs + 1 + n) + 1 by
        rw [Nested.steps]; omega, walkWithin]
      simp only [openNode, h]
      rw [walk_frame xs cs.toList true (⟨is, false⟩ :: frames) _ n hxs, write_production]
      rfl

/-- A walk writes the children of a frame and closes its production. -/
theorem walk_frame : ∀ (xs : List (Nested R)) (is : List NodeId) (first : Bool)
    (frames : List Frame) (p : Pen) (n : Nat), Nested.AllAt t xs is →
    walkWithin v t (Nested.stepsAll xs + 1 + n) (⟨is, first⟩ :: frames) p =
      walkWithin v t n frames
        (afterFrame frames (Value.writeElements (Nested.values v xs) first p))
  | [], is, first, frames, p, n, h => by
      rw [Nested.AllAt] at h
      subst h
      rw [Nested.stepsAll, Nat.zero_add, Nat.add_comm, walkWithin, Nested.values,
        Value.writeElements, afterFrame]
  | x :: xs, is, first, frames, p, n, h => by
      rw [Nested.AllAt] at h
      obtain ⟨i, is', rfl, hx, hxs⟩ := h
      rw [show Nested.stepsAll (x :: xs) + 1 + n = x.steps + 1 + (Nested.stepsAll xs + 1 + n) by
        rw [Nested.stepsAll]; omega]
      rw [walk_child x i is' first frames p _ hx, walk_frame xs is' false frames _ n hxs,
        Nested.values, Value.writeElements]

end

/-- With enough steps the walk writes the document of the nested tree at the root. -/
theorem streamWithin_eq {x : Nested R} (h : x.At t Tree.root) (layout : Layout) {n : Nat}
    (hn : x.steps ≤ n) :
    streamWithin v layout t n = some ((x.value v).write { layout := layout }) := by
  rw [streamWithin]
  cases x with
  | token tok =>
      rw [Nested.At] at h
      simp only [openNode, h, Option.toList_none]
      rw [walkWithin, putToken_eq_write]
  | production r xs =>
      rw [Nested.At] at h
      obtain ⟨cs, h, hxs⟩ := h
      simp only [openNode, h, Option.toList_some]
      rw [Nested.steps] at hn
      rw [show n = Nested.stepsAll xs + 1 + (n - (Nested.stepsAll xs + 1)) by omega,
        walk_frame xs cs.toList true [] _ _ hxs, walkWithin, write_production]
      rfl

/-! ### The sweep -/

/-- Take the values of some nodes; nothing if one is missing. -/
def takeValues? : List NodeId → Slots → Option (List Value × Slots)
  | [], slots => some ([], slots)
  | i :: is, slots =>
    (slots[i.index]?.join).bind fun value =>
      (takeValues? is (slots.setIfInBounds i.index none)).map fun (values, slots) =>
        (value :: values, slots)

/-- The value of a node; nothing if the value of a child is missing. -/
def nodeValue? (v : Vocabulary R) (n : Node R) (slots : Slots) : Option (Value × Slots) :=
  match n with
  | .token t => some (tokenValue v t, slots)
  | .production r children =>
    (takeValues? children.toList slots).map fun (values, slots) =>
      (.object [(v.ruleName r, .array values)], slots)

/-- Fill the slots of the last nodes; nothing if the value of a child is missing on the way. -/
def fillSlots? (v : Vocabulary R) : List (Node R × Nat) → Slots → Option Slots
  | [], slots => some slots
  | (n, i) :: ns, slots =>
    (nodeValue? v n slots).bind fun (value, slots) =>
      fillSlots? v ns (slots.setIfInBounds i (some value))

/-- The document of a tree; nothing if `ofTree` puts `null` in the place of a missing value. -/
def ofTree? (v : Vocabulary R) (t : Tree R) : Option Value :=
  (fillSlots? v t.nodes.toList.zipIdx.reverse (Array.replicate t.size none)).bind
    fun slots => slots[Tree.root.index]?.join

/-- The slot of a node holds the document of the nested tree there. -/
def Holds (v : Vocabulary R) (t : Tree R) (slots : Slots) (i : NodeId) : Prop :=
  ∃ x : Nested R, x.At t i ∧ slots[i.index]? = some (some (x.value v))

/-- The slots when the nodes from `k` on were visited: each of them that is no child of another one
still has its value. -/
structure Swept (v : Vocabulary R) (t : Tree R) (k : Nat) (slots : Slots) : Prop where
  size_eq : slots.size = t.size
  pending : ∀ i : NodeId, k ≤ i.index → i.index < t.size →
    i ∉ (t.nodes.toList.drop k).flatMap (fun n => n.children.toList) → Holds v t slots i

theorem takeValues?_eq : ∀ (is : List NodeId) (slots : Slots), is.Nodup →
    (∀ i ∈ is, Holds v t slots i) →
    ∃ xs slots', Nested.AllAt t xs is ∧
      takeValues? is slots = some (Nested.values v xs, slots') ∧
      takeValues is slots = (Nested.values v xs, slots') ∧ slots'.size = slots.size ∧
      ∀ j, (⟨j⟩ : NodeId) ∉ is → slots'[j]? = slots[j]?
  | [], slots, _, _ => ⟨[], slots, by rw [Nested.AllAt], rfl, rfl, rfl, fun _ _ => rfl⟩
  | i :: is, slots, hnd, hslots => by
      rw [List.nodup_cons] at hnd
      obtain ⟨x, hx, hxv⟩ := hslots i List.mem_cons_self
      have hrest : ∀ j ∈ is, Holds v t (slots.setIfInBounds i.index none) j := by
        intro j hj
        obtain ⟨y, hy, hyv⟩ := hslots j (List.mem_cons_of_mem i hj)
        refine ⟨y, hy, ?_⟩
        have hij : i.index ≠ j.index := fun h => hnd.1 (by cases i; cases j; cases h; exact hj)
        rw [Array.getElem?_setIfInBounds_ne hij, hyv]
      obtain ⟨xs, slots', hxs, h?, h, hsize, hframe⟩ :=
        takeValues?_eq is (slots.setIfInBounds i.index none) hnd.2 hrest
      refine ⟨x :: xs, slots', by rw [Nested.AllAt]; exact ⟨i, is, rfl, hx, hxs⟩, ?_, ?_, ?_, ?_⟩
      · rw [takeValues?, hxv, h?]
        rfl
      · rw [takeValues, hxv, h]
        rfl
      · rw [hsize, Array.size_setIfInBounds]
      · intro j hj
        rw [List.mem_cons, not_or] at hj
        have hij : i.index ≠ j := fun h => hj.1 (by cases i; cases h; rfl)
        rw [hframe j hj.2, Array.getElem?_setIfInBounds_ne hij]

theorem nodeValue?_eq {n : Node R} {i : NodeId} {slots : Slots} (hn : t.node? i = some n)
    (hnd : n.children.toList.Nodup) (hslots : ∀ c ∈ n.children.toList, Holds v t slots c) :
    ∃ (x : Nested R) (slots' : Slots), x.At t i ∧
      nodeValue? v n slots = some (x.value v, slots') ∧
      nodeValue v n slots = (x.value v, slots') ∧ slots'.size = slots.size ∧
      ∀ j, (⟨j⟩ : NodeId) ∉ n.children.toList → slots'[j]? = slots[j]? := by
  cases n with
  | token tok =>
      refine ⟨.token tok, slots, by rw [Nested.At]; exact hn, ?_, ?_, rfl, fun _ _ => rfl⟩
      · rw [nodeValue?, Nested.value, tokenValue]
      · rw [nodeValue, Nested.value, tokenValue]
  | production r cs =>
      obtain ⟨xs, slots', hxs, h?, h, hsize, hframe⟩ := takeValues?_eq cs.toList slots hnd hslots
      refine ⟨.production r xs, slots', by rw [Nested.At]; exact ⟨cs, hn, hxs⟩, ?_, ?_, hsize,
        hframe⟩
      · rw [nodeValue?, h?, Nested.value]
        rfl
      · rw [nodeValue, h, Nested.value]

/-- One visit: the node's children are pending, and afterwards it is pending in their place. -/
theorem Swept.visit (hf : IsForest t.nodes.toList) {k : Nat} {slots : Slots} {n : Node R}
    (h : Swept v t (k + 1) slots) (hn : t.node? ⟨k⟩ = some n) :
    ∃ value slots', nodeValue? v n slots = some (value, slots') ∧
      nodeValue v n slots = (value, slots') ∧
      Swept v t k (slots'.setIfInBounds k (some value)) := by
  have hn' : t.nodes.toList[k]? = some n := by rw [Array.getElem?_toList]; exact hn
  have hdrop : t.nodes.toList.drop k = n :: t.nodes.toList.drop (k + 1) := by
    obtain ⟨hk, hget⟩ := List.getElem?_eq_some_iff.mp hn'
    rw [List.drop_eq_getElem_cons hk, hget]
  have hnd := hf.nodup
  rw [← List.take_append_drop k t.nodes.toList, List.flatMap_append, List.nodup_append] at hnd
  replace hnd := hnd.2.1
  rw [hdrop, List.flatMap_cons, List.nodup_append] at hnd
  have hchild : ∀ c ∈ n.children.toList, Holds v t slots c := by
    intro c hc
    have hlt := hf.child_after k n hn' c (Array.mem_toList_iff.mp hc)
    exact h.pending c hlt.1 (by simpa [Tree.size] using hlt.2) fun hc' => hnd.2.2 c hc c hc' rfl
  obtain ⟨x, slots', hx, h?, hval, hsize, hframe⟩ := nodeValue?_eq hn hnd.1 hchild
  refine ⟨x.value v, slots', h?, hval, by rw [Array.size_setIfInBounds, hsize, h.size_eq], ?_⟩
  intro i hki hi hni
  rw [hdrop, List.flatMap_cons, List.mem_append, not_or] at hni
  rcases Nat.eq_or_lt_of_le hki with hik | hik
  · refine ⟨x, by cases i; cases hik; exact hx, ?_⟩
    rw [← hik, Array.getElem?_setIfInBounds_self_of_lt (by rw [hsize, h.size_eq]; omega)]
  · obtain ⟨y, hy, hyv⟩ := h.pending i hik hi hni.2
    refine ⟨y, hy, ?_⟩
    rw [Array.getElem?_setIfInBounds_ne (Nat.ne_of_lt hik), hframe i.index hni.1, hyv]

/-- All visits, from the last node to the first. -/
theorem Swept.run (hf : IsForest t.nodes.toList) : ∀ (k : Nat) (slots : Slots), k ≤ t.size →
    Swept v t k slots →
    ∃ slots', fillSlots? v (t.nodes.toList.take k).zipIdx.reverse slots = some slots' ∧
      fillSlots v (t.nodes.toList.take k).zipIdx.reverse slots = slots' ∧ Swept v t 0 slots'
  | 0, slots, _, h => ⟨slots, rfl, rfl, h⟩
  | k + 1, slots, hk, h => by
      have hk' : k < t.nodes.toList.length := by rw [Array.length_toList]; exact hk
      have hlist : (t.nodes.toList.take (k + 1)).zipIdx.reverse =
          (t.nodes.toList[k], k) :: (t.nodes.toList.take k).zipIdx.reverse := by
        rw [List.take_succ_eq_append_getElem hk', List.zipIdx_append, List.reverse_append]
        simp [Nat.min_eq_left (show k ≤ t.nodes.size from Nat.le_of_lt hk)]
      have hn : t.node? ⟨k⟩ = some t.nodes.toList[k] := by
        rw [Tree.node?, ← Array.getElem?_toList, List.getElem?_eq_getElem hk']
      obtain ⟨value, slots₁, h?, hval, hswept⟩ := h.visit hf hn
      obtain ⟨slots', hr?, hr, hswept'⟩ := Swept.run hf k _ (Nat.le_of_lt hk) hswept
      refine ⟨slots', ?_, ?_, hswept'⟩
      · rw [hlist, fillSlots?, h?]
        exact hr?
      · rw [hlist, fillSlots, hval]
        exact hr

/-- The sweep finds every value it asks for, and its result is the document of the nested tree at the
root. -/
theorem ofTree?_eq (hf : IsForest t.nodes.toList) :
    ∃ x : Nested R, x.At t Tree.root ∧ ofTree? v t = some (x.value v) ∧ ofTree v t = x.value v := by
  have hstart : Swept v t t.size (Array.replicate t.size none) :=
    ⟨Array.size_replicate, fun i hi hi' => absurd hi' (Nat.not_lt.mpr hi)⟩
  obtain ⟨slots, h?, h, hswept⟩ := Swept.run hf t.size _ (Nat.le_refl _) hstart
  rw [List.take_of_length_le (by rw [Array.length_toList]; exact Nat.le_refl _)] at h? h
  have hroot : Tree.root ∉ (t.nodes.toList.drop 0).flatMap fun n => n.children.toList := by
    rw [List.drop_zero]
    intro hmem
    obtain ⟨n, hn, hc⟩ := List.mem_flatMap.mp hmem
    obtain ⟨i, hi⟩ := List.mem_iff_getElem?.mp hn
    exact Nat.not_lt_zero i (hf.child_after i n hi Tree.root (Array.mem_toList_iff.mp hc)).1
  obtain ⟨x, hx, hxv⟩ := hswept.pending Tree.root (Nat.zero_le _) t.size_pos hroot
  refine ⟨x, hx, ?_, ?_⟩
  · rw [ofTree?, h?, Option.bind_some, hxv]
    rfl
  · simp only [ofTree, h, hxv, Option.join_some, Option.getD_some]

/-! ### Steps -/

mutual

/-- The number of objects in a value. -/
def Value.objects : Value → Nat
  | .null | .bool _ | .number _ | .string _ => 0
  | .array vs => Value.objectsAll vs
  | .object ms => Value.objectsIn ms + 1

def Value.objectsAll : List Value → Nat
  | [] => 0
  | value :: vs => value.objects + Value.objectsAll vs

/-- The number of objects in the values of some members. -/
def Value.objectsIn : List (String × Value) → Nat
  | [] => 0
  | (_, value) :: ms => value.objects + Value.objectsIn ms

end

mutual

theorem objects_value : ∀ x : Nested R, (x.value v).objects = x.size
  | .token _ => by
      simp only [Nested.value, Value.objects, Value.objectsIn, Nested.size]
  | .production _ xs => by
      simp only [Nested.value, Value.objects, Value.objectsIn, Nested.size, objects_values xs,
        Nat.add_zero]

theorem objects_values : ∀ xs : List (Nested R),
    Value.objectsAll (Nested.values v xs) = Nested.sizeAll xs
  | [] => rfl
  | x :: xs => by
      rw [Nested.values, Value.objectsAll, objects_value x, objects_values xs, Nested.sizeAll]

end

/-- The number of objects in a value that may be missing. -/
def slotObjects (o : Option Value) : Nat := (o.map Value.objects).getD 0

def slotsObjects : List (Option Value) → Nat
  | [] => 0
  | o :: slots => slotObjects o + slotsObjects slots

theorem slotObjects_eq (o : Option Value) : slotObjects o = (o.getD .null).objects := by
  cases o <;> rfl

theorem slotsObjects_set (o : Option Value) : ∀ (slots : List (Option Value)) (i : Nat),
    slotsObjects (slots.set i o) + slotObjects slots[i]?.join ≤ slotsObjects slots + slotObjects o
  | [], i => by simp [slotsObjects, slotObjects]
  | o' :: slots, 0 => by
      simp only [slotsObjects, List.set_cons_zero, List.getElem?_cons_zero, Option.join_some]
      omega
  | o' :: slots, i + 1 => by
      have ih := slotsObjects_set o slots i
      simp only [slotsObjects, List.set_cons_succ, List.getElem?_cons_succ]
      omega

theorem slotsObjects_replicate (n : Nat) : slotsObjects (List.replicate n none) = 0 := by
  induction n with
  | zero => rfl
  | succ n ih =>
      rw [List.replicate_succ, slotsObjects, ih]
      rfl

theorem objects_takeValues : ∀ (is : List NodeId) (slots : Slots),
    Value.objectsAll (takeValues is slots).1 + slotsObjects (takeValues is slots).2.toList ≤
      slotsObjects slots.toList
  | [], slots => by simp [takeValues, Value.objectsAll]
  | i :: is, slots => by
      have hset := slotsObjects_set none slots.toList i.index
      have ih := objects_takeValues is (slots.setIfInBounds i.index none)
      rw [Array.toList_setIfInBounds] at ih
      rw [Array.getElem?_toList, slotObjects_eq] at hset
      simp only [takeValues, Value.objectsAll]
      have : slotObjects none = 0 := rfl
      omega

theorem objects_nodeValue (n : Node R) (slots : Slots) :
    (nodeValue v n slots).1.objects + slotsObjects (nodeValue v n slots).2.toList ≤
      slotsObjects slots.toList + 1 := by
  cases n with
  | token tok =>
      simp only [nodeValue, tokenValue, Value.objects, Value.objectsIn]
      omega
  | production r cs =>
      have := objects_takeValues cs.toList slots
      simp only [nodeValue, Value.objects, Value.objectsIn]
      omega

theorem objects_fillSlots : ∀ (ns : List (Node R × Nat)) (slots : Slots),
    slotsObjects (fillSlots v ns slots).toList ≤ slotsObjects slots.toList + ns.length
  | [], slots => Nat.le_refl _
  | (n, i) :: ns, slots => by
      have hnode := objects_nodeValue (v := v) n slots
      have hset := slotsObjects_set (some (nodeValue v n slots).1) (nodeValue v n slots).2.toList i
      have ih := objects_fillSlots ns
        ((nodeValue v n slots).2.setIfInBounds i (some (nodeValue v n slots).1))
      rw [Array.toList_setIfInBounds] at ih
      have : slotObjects (some (nodeValue v n slots).1) = (nodeValue v n slots).1.objects := rfl
      simp only [fillSlots, List.length_cons]
      omega

/-- A document has at most one object per node of the arena. -/
theorem objects_ofTree_le (t : Tree R) : (ofTree v t).objects ≤ t.size := by
  have hfill := objects_fillSlots (v := v) t.nodes.toList.zipIdx.reverse
    (Array.replicate t.size none)
  have hroot := slotsObjects_set none (fillSlots v t.nodes.toList.zipIdx.reverse
    (Array.replicate t.size none)).toList Tree.root.index
  have hempty : slotsObjects (Array.replicate t.size (none : Option Value)).toList = 0 := by
    rw [Array.toList_replicate, slotsObjects_replicate]
  rw [Array.getElem?_toList, slotObjects_eq] at hroot
  rw [hempty, List.length_reverse, List.length_zipIdx, Array.length_toList] at hfill
  have : slotObjects none = 0 := rfl
  have hsize : t.size = t.nodes.size := rfl
  rw [ofTree]
  omega

/-- The nested tree at the root of a forest has no more nodes than the arena. -/
theorem size_le_of_at_root (v : Vocabulary R) (hf : IsForest t.nodes.toList) {x : Nested R}
    (h : x.At t Tree.root) : x.size ≤ t.size := by
  obtain ⟨y, hy, -, hv⟩ := ofTree?_eq (v := v) hf
  obtain rfl := h.unique hy
  have hle := objects_ofTree_le (v := v) t
  rwa [hv, objects_value] at hle

theorem stream_eq {x : Nested R} (h : x.At t Tree.root) (hsize : x.size ≤ t.size)
    (layout : Layout) : stream v layout t = (x.value v).pieces layout := by
  have := x.steps_lt
  rw [stream, streamWithin_eq h layout (by omega)]
  rfl

theorem pieces_eq (hf : IsForest t.nodes.toList) {x : Nested R} (h : x.At t Tree.root)
    (o : Options) : pieces v o t = (x.value v).pieces o.layout := by
  obtain ⟨y, hy, -, hv⟩ := ofTree?_eq (v := v) hf
  obtain rfl := h.unique hy
  rw [pieces]
  cases o.strategy with
  | stream => exact stream_eq h (size_le_of_at_root v hf h) o.layout
  | materialize => rw [materialize, hv]

/-- **Strategies.**  A tree whose builder only used its own ids has the same document by both
strategies, byte for byte, and no value is missing when the value strategy asks for it. -/
theorem bytes_stream_eq_materialize (v : Vocabulary R) {t : Tree R} (h : t.Grown)
    (layout : Layout) :
    bytes v ⟨.stream, layout⟩ t = bytes v ⟨.materialize, layout⟩ t ∧
      ofTree? v t = some (ofTree v t) := by
  obtain ⟨x, hx, hv?, hv⟩ := ofTree?_eq (v := v) h.isForest
  refine ⟨?_, by rw [hv?, hv]⟩
  rw [bytes, bytes, pieces_eq h.isForest hx, pieces_eq h.isForest hx]

/-- The strategies agree on a tree whose nodes were linked out of order. -/
theorem bytes_loose_stream_eq_materialize : Tree.loose.Grown ∧
    bytes ⟨id⟩ ⟨.stream, .pretty⟩ Tree.loose = bytes ⟨id⟩ ⟨.materialize, .pretty⟩ Tree.loose ∧
      ofTree? ⟨id⟩ Tree.loose = some (ofTree ⟨id⟩ Tree.loose) :=
  ⟨Tree.grown_loose, bytes_stream_eq_materialize ⟨id⟩ Tree.grown_loose .pretty⟩

end Document

end ConcreteSyntax
