import ConcreteSyntax.Proofs.Extraction

/-! # Arenas hold the whole tree, in pre-order

The arena of a parsed source is the nested tree of its match, node after node, and nothing else
(`Language.isPreorder_parseTree`).  So each stored node stands in the document once: as an object with
four members if it is a token, with one if it is a production (`objects_value`,
`objectsWith_value`). -/

namespace ConcreteSyntax

open Document (Value)
open Output (Sink)

/-! ### Counting objects -/

namespace Document

mutual

/-- The number of objects with `n` members in a value. -/
def Value.objectsWith (n : Nat) : Value → Nat
  | .null | .bool _ | .number _ | .string _ => 0
  | .array vs => Value.objectsWithAll n vs
  | .object ms => Value.objectsWithIn n ms + if ms.length = n then 1 else 0

/-- The number of objects with `n` members in several values. -/
def Value.objectsWithAll (n : Nat) : List Value → Nat
  | [] => 0
  | value :: vs => value.objectsWith n + Value.objectsWithAll n vs

/-- The number of objects with `n` members in the values of some members. -/
def Value.objectsWithIn (n : Nat) : List (String × Value) → Nat
  | [] => 0
  | (_, value) :: ms => value.objectsWith n + Value.objectsWithIn n ms

end

variable {R : Type} {v : Vocabulary R}

mutual

/-- Every token of a nested tree gives an object with four members, and nothing else does. -/
theorem objectsWith_value : ∀ x : Nested R, (x.value v).objectsWith 4 = x.tokens.length
  | .token _ => by
      simp [Nested.value, Value.objectsWith, Value.objectsWithIn, Nested.tokens]
  | .production _ xs => by
      simp [Nested.value, Value.objectsWith, Value.objectsWithIn, Nested.tokens,
        objectsWith_values xs]

theorem objectsWith_values : ∀ xs : List (Nested R),
    Value.objectsWithAll 4 (Nested.values v xs) = (Nested.tokensAll xs).length
  | [] => rfl
  | x :: xs => by
      rw [Nested.values, Value.objectsWithAll, objectsWith_value x, objectsWith_values xs,
        Nested.tokensAll, List.length_append]

end

end Document

/-! ### Parsed sources -/

/-- **Pre-order.**  In the order of their indices the nodes of a parsed source are the traversal of the
tree from its root, and the tree is that of the one match of the parse.  So a run counts as many nodes
as its document has objects, and as many tokens as it has objects with four members. -/
theorem Language.isPreorder_parseTree (l : Language) (origin source : String) (limit : Option Nat)
    (t : Tree l.Rules) (h : l.parseTree origin source limit = .ok t) :
    t.IsPreorder ∧
    (∃ m, l.grammar.parse limit source.toList = .ok [m] ∧
      t.nodes.toList = (m.nested l.vocabulary source.toList).layout 0 ∧
      (m.nested l.vocabulary source.toList).At t Tree.root) ∧
    ∀ (o : Options) (sink : Sink) (summary : Summary), o.callLimit = limit → sink.Willing →
      (extract o l origin source sink).result = .ok summary →
      ∃ (text : String) (w : Value),
        (extract o l origin source sink).sink.accepted = sink.accepted ++ text.toUTF8 ∧
        (∀ w', Json.Decodes text.toList w' ↔ w' = w) ∧
        w.objects = summary.nodes ∧ w.objectsWith 4 = summary.tokens := by
  obtain ⟨m, _, hparse, hnodes, _⟩ := Language.parseTree_spans h
  obtain ⟨hroot, htokens⟩ := Nested.at_root_of_layout hnodes
  refine ⟨Tree.isPreorder_of_layout hnodes, ⟨m, hparse, hnodes, hroot⟩, ?_⟩
  intro o sink summary hlimit hsink hresult
  subst hlimit
  obtain ⟨haccepted, rfl⟩ := extract_result_ok h hsink hresult
  obtain ⟨hbytes, htext⟩ :=
    Document.isText_text l.vocabulary (Language.isForest_parseTree h) hroot o.document
  generalize hx : m.nested l.vocabulary source.toList = x at *
  have hdecodes : Json.Decodes (Document.text l.vocabulary o.document t).toList
      (x.value l.vocabulary) := ⟨_, htext, Document.value?_json _⟩
  have hsize : t.size = x.size := by
    rw [Tree.size, ← Array.length_toList, hnodes, Nested.length_layout]
  refine ⟨Document.text l.vocabulary o.document t, x.value l.vocabulary, ?_, fun w' => ?_, ?_, ?_⟩
  · rw [hbytes, haccepted]
  · exact ⟨fun hw => hw.unique hdecodes, fun hw => hw ▸ hdecodes⟩
  · rw [Document.objects_value, summaryOf, hsize]
  · rw [Document.objectsWith_value, summaryOf, htokens]

theorem Language.isPreorder_parseTree_object :
    ∃ t, json.parseTree "a.json" "[\x7b\"é\" : 1\x7d, 2]" none = .ok t ∧ t.IsPreorder ∧
      (∃ m, json.grammar.parse none "[\x7b\"é\" : 1\x7d, 2]".toList = .ok [m] ∧
        t.nodes.toList = (m.nested json.vocabulary "[\x7b\"é\" : 1\x7d, 2]".toList).layout 0 ∧
        (m.nested json.vocabulary "[\x7b\"é\" : 1\x7d, 2]".toList).At t Tree.root) ∧
      ∃ (summary : Summary) (text : String) (w : Value),
        (extract {} json "a.json" "[\x7b\"é\" : 1\x7d, 2]" {}).result = .ok summary ∧
        (extract {} json "a.json" "[\x7b\"é\" : 1\x7d, 2]" {}).sink.accepted =
          ByteArray.empty ++ text.toUTF8 ∧
        (∀ w', Json.Decodes text.toList w' ↔ w' = w) ∧
        w.objects = summary.nodes ∧ w.objectsWith 4 = summary.tokens := by
  have hok : (json.parseTree "a.json" "[\x7b\"é\" : 1\x7d, 2]" none).toOption.isSome = true := by
    decide +kernel
  obtain ⟨t, ht⟩ := Language.exists_parseTree hok
  obtain ⟨hpre, hmatch, hcounts⟩ := Language.isPreorder_parseTree json "a.json" _ none t ht
  have hresult := (extract_unlimited (o := {}) ht).2
  obtain ⟨text, w, hrest⟩ := hcounts {} {} _ rfl Sink.willing_default hresult
  exact ⟨t, ht, hpre, hmatch, _, text, w, hresult, hrest⟩

end ConcreteSyntax
