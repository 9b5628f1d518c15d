import ConcreteSyntax.Extraction
import ConcreteSyntax.Proofs.Document.RoundTrip
import ConcreteSyntax.Proofs.Lossless
import ConcreteSyntax.Proofs.Output.Delivery
import ConcreteSyntax.Proofs.Tree.Addresses
import ConcreteSyntax.Proofs.Tree.Preorder

/-! # What a run leaves in its sink

A run that has no tree does not touch its sink.  A run that has one hands the tree's document to the sink,
piece by piece, and what arrives there is the beginning of the document that the sink has room for
(`extract_truncates`).

The pieces are the same by both strategies (`Language.pieces_parseTree`), so a sink cannot tell them
apart, wherever it fails. -/

namespace ConcreteSyntax

open Document (Strategy)
open Output (Sink)

variable {o : Options} {l : Language} {origin source : String} {t : Tree l.Rules}

/-! ### Documents of parsed sources -/

theorem Language.isForest_parseTree {limit : Option Nat}
    (h : l.parseTree origin source limit = .ok t) : IsForest t.nodes.toList := by
  obtain ⟨m, _, _, hnodes, _⟩ := Language.parseTree_spans h
  rw [hnodes]
  exact (m.nested l.vocabulary source.toList).isForest_layout

theorem Language.pieces_parseTree {limit : Option Nat}
    (h : l.parseTree origin source limit = .ok t) (s s' : Strategy) (layout : Document.Layout) :
    Document.pieces l.vocabulary ⟨s, layout⟩ t = Document.pieces l.vocabulary ⟨s', layout⟩ t := by
  obtain ⟨m, _, _, hnodes, _⟩ := Language.parseTree_spans h
  have hroot := (Nested.at_root_of_layout hnodes).1
  have hforest := Language.isForest_parseTree h
  rw [Document.pieces_eq hforest hroot, Document.pieces_eq hforest hroot]

/-! ### Runs -/

theorem extract_of_error {f : Failure} (h : l.parseTree origin source o.callLimit = .error f)
    (sink : Sink) : extract o l origin source sink = ⟨sink, [], .error f⟩ := by
  rw [extract, h]

def summaryOf (l : Language) (source : String) (t : Tree l.Rules) : Summary :=
  ⟨l, source.utf8ByteSize, t.size, t.tokens.length⟩

/-- A run with a tree leaves the sink as the delivery of the pieces does, and fails only if that fails. -/
theorem extract_of_ok (h : l.parseTree origin source o.callLimit = .ok t) (sink : Sink) :
    (extract o l origin source sink).sink =
        (sink.deliverBuffered (Document.pieces l.vocabulary o.document t)).1 ∧
      (extract o l origin source sink).result =
        match (sink.deliverBuffered (Document.pieces l.vocabulary o.document t)).2 with
        | some cause => .error (.unwritable cause)
        | none => .ok (summaryOf l source t) := by
  rw [extract, h]
  cases hd : sink.deliverBuffered (Document.pieces l.vocabulary o.document t) with
  | mk sink' stop =>
      cases stop with
      | some cause => simp only [hd, and_self]
      | none => simp only [hd, summaryOf, and_self]

/-- The sink takes the beginning of the document that it has room for; the run ends well exactly if that
is all of it and the sink can be flushed. -/
theorem extract_delivers (h : l.parseTree origin source o.callLimit = .ok t) {sink : Sink}
    (hsink : sink.Willing) {d : ByteArray} (hd : Document.bytes l.vocabulary o.document t = d) :
    (extract o l origin source sink).sink.taken =
        sink.taken ++ d.data.toList.take (sink.room d.size) ∧
      (sink.room d.size = d.size ∧ sink.flushError = none →
        (extract o l origin source sink).result = .ok (summaryOf l source t)) ∧
      (¬ (sink.room d.size = d.size ∧ sink.flushError = none) →
        ∃ cause, (extract o l origin source sink).result = .error (.unwritable cause)) := by
  have hpieces : (Document.pieces l.vocabulary o.document t).flatMap (·.data.toList) =
      d.data.toList := by
    rw [← hd, Document.bytes, Document.toList_foldl_append]
    rfl
  obtain ⟨hleft, hresult⟩ := extract_of_ok h sink
  obtain ⟨htaken, hnone⟩ := Sink.deliverBuffered_spec hsink _ hpieces
  rw [Array.length_toList, show d.data.size = d.size from rfl] at htaken hnone
  rw [hleft, hresult]
  refine ⟨htaken, fun hall => ?_, fun hstop => ?_⟩
  · rw [hnone.mpr hall]
  · cases hc : (sink.deliverBuffered (Document.pieces l.vocabulary o.document t)).2 with
    | none => exact absurd (hnone.mp hc) hstop
    | some cause => exact ⟨cause, rfl⟩

/-- If a run ends well, all of the document has arrived, and its nodes and tokens were counted. -/
theorem extract_result_ok (h : l.parseTree origin source o.callLimit = .ok t) {sink : Sink}
    (hsink : sink.Willing) {summary : Summary}
    (hresult : (extract o l origin source sink).result = .ok summary) :
    (extract o l origin source sink).sink.accepted =
        sink.accepted ++ Document.bytes l.vocabulary o.document t ∧
      summary = summaryOf l source t := by
  obtain ⟨htaken, hall, hstop⟩ := extract_delivers h hsink rfl
  generalize Document.bytes l.vocabulary o.document t = d at *
  have hfits : sink.room d.size = d.size ∧ sink.flushError = none := by
    refine Decidable.byContradiction fun hno => ?_
    obtain ⟨cause, hc⟩ := hstop hno
    rw [hresult] at hc
    cases hc
  refine ⟨ByteArray.ext (Array.toList_inj.mp ?_), ?_⟩
  · rw [hfits.1, List.take_of_length_le (by rw [Array.length_toList]; exact Nat.le_refl _)] at htaken
    rw [ByteArray.data_append, Array.toList_append]
    exact htaken
  · have hok := hall hfits
    rw [hresult] at hok
    exact Except.ok.inj hok

theorem extract_unlimited (h : l.parseTree origin source o.callLimit = .ok t) :
    (extract o l origin source {}).sink.accepted = Document.bytes l.vocabulary o.document t ∧
      (extract o l origin source {}).result = .ok (summaryOf l source t) := by
  obtain ⟨htaken, hall, _⟩ := extract_delivers h Sink.willing_default rfl
  refine ⟨ByteArray.ext (Array.toList_inj.mp ?_), hall ⟨rfl, rfl⟩⟩
  refine htaken.trans ?_
  exact List.take_of_length_le (by rw [Array.length_toList]; exact Nat.le_refl _)

theorem Language.parseTree_origin {limit : Option Nat} (h : l.parseTree origin source limit = .ok t)
    (origin' : String) : l.parseTree origin' source limit = .ok t := by
  obtain ⟨ms, hparse⟩ := Language.parse_of_parseTree h
  simp only [Language.parseTree, hparse] at h ⊢
  cases htree : Tree.ofMatches l.vocabulary source.toList ms with
  | none =>
      rw [htree] at h
      cases h
  | some t' =>
      rw [htree] at h
      exact h

theorem extractToString_of_ok (h : l.parseTree origin source o.callLimit = .ok t) :
    extractToString o l source = .ok (Document.text l.vocabulary o.document t) := by
  obtain ⟨haccepted, hresult⟩ := extract_unlimited (Language.parseTree_origin h "<memory>")
  rw [extractToString, hresult, haccepted]
  rfl

theorem Language.toUTF8_text_parseTree {limit : Option Nat}
    (h : l.parseTree origin source limit = .ok t) (o : Document.Options) :
    (Document.text l.vocabulary o t).toUTF8 = Document.bytes l.vocabulary o t := by
  obtain ⟨m, _, _, hnodes, _⟩ := Language.parseTree_spans h
  exact (Document.isText_text l.vocabulary (Language.isForest_parseTree h)
    (Nested.at_root_of_layout hnodes).1 o).1

theorem extract_strategy (o : Options) (l : Language) (origin source : String) (sink : Sink)
    (s : Strategy) :
    (extract { o with strategy := s } l origin source sink).sink =
        (extract o l origin source sink).sink ∧
      (extract { o with strategy := s } l origin source sink).result =
        (extract o l origin source sink).result := by
  cases h : l.parseTree origin source o.callLimit with
  | error f =>
      rw [extract_of_error h, extract_of_error (o := { o with strategy := s }) h]
      exact ⟨rfl, rfl⟩
  | ok t =>
      obtain ⟨hsink, hresult⟩ := extract_of_ok h sink
      obtain ⟨hsink', hresult'⟩ := extract_of_ok (o := { o with strategy := s }) h sink
      have hpieces : Document.pieces l.vocabulary ({ o with strategy := s } : Options).document t =
          Document.pieces l.vocabulary o.document t := Language.pieces_parseTree h ..
      rw [hpieces] at hsink' hresult'
      rw [hsink, hresult, hsink', hresult']
      exact ⟨rfl, rfl⟩

/-- **Failing sinks.**  A sink that takes at most so many bytes in each write and `L` bytes in all is left
with the first `L` bytes of the document.  The run ends well exactly if the document is no longer than
that and the sink can be flushed; otherwise its failure is one of output.  The strategy makes no
difference.  Without a tree nothing is written and nothing flushed. -/
theorem extract_truncates (o : Options) (l : Language) (origin source : String) {sink : Sink}
    {L : Nat} (hsink : sink.Willing) (hcapacity : sink.capacity = some L)
    (hempty : sink.accepted = .empty) :
    (∀ t, l.parseTree origin source o.callLimit = .ok t →
      (extract o l origin source sink).sink.accepted =
          (Document.bytes l.vocabulary o.document t).extract 0
            (min L (Document.bytes l.vocabulary o.document t).size) ∧
        ((∃ summary, (extract o l origin source sink).result = .ok summary) ↔
          (Document.bytes l.vocabulary o.document t).size ≤ L ∧ sink.flushError = none) ∧
        ∀ f, (extract o l origin source sink).result = .error f → ∃ cause, f = .unwritable cause) ∧
    (∀ s : Strategy,
      (extract { o with strategy := s } l origin source sink).sink.accepted =
          (extract o l origin source sink).sink.accepted ∧
        (extract { o with strategy := s } l origin source sink).result =
          (extract o l origin source sink).result) ∧
    ∀ f, l.parseTree origin source o.callLimit = .error f →
      (extract o l origin source sink).result = .error f ∧
        (extract o l origin source sink).sink.accepted = .empty ∧
        (extract o l origin source sink).sink.writes = sink.writes ∧
        (extract o l origin source sink).sink.flushes = sink.flushes := by
  have hroom : ∀ n, sink.room n = min L n := by
    intro n
    rw [Sink.room, hcapacity, hempty, Nat.min_comm]
    rfl
  refine ⟨fun t ht => ?_, fun s => ?_, fun f hf => ?_⟩
  · generalize hd : Document.bytes l.vocabulary o.document t = d
    obtain ⟨htaken, hall, hstop⟩ := extract_delivers ht hsink hd
    rw [hroom] at htaken hall hstop
    have hfits : min L d.size = d.size ↔ d.size ≤ L := by omega
    rw [hfits] at hall hstop
    refine ⟨?_, ⟨fun hok => ?_, fun hfit => ⟨_, hall hfit⟩⟩, fun f hf => ?_⟩
    · refine ByteArray.ext (Array.toList_inj.mp ?_)
      rw [Document.toList_extract, List.drop_zero, Nat.sub_zero]
      rw [Sink.taken, Sink.taken, hempty] at htaken
      exact htaken
    · obtain ⟨summary, hok⟩ := hok
      refine Decidable.byContradiction fun hno => ?_
      obtain ⟨cause, hc⟩ := hstop hno
      rw [hok] at hc
      cases hc
    · obtain ⟨cause, hc⟩ := hstop fun hfit => by
        rw [hall hfit] at hf
        cases hf
      rw [hc] at hf
      cases hf
      exact ⟨cause, rfl⟩
  · obtain ⟨hleft, hresult⟩ := extract_strategy o l origin source sink s
    exact ⟨by rw [hleft], hresult⟩
  · rw [extract_of_error hf]
    exact ⟨rfl, hempty, rfl, rfl⟩

/-- A sink of ten bytes that takes one, two or three of them in a write and then no more. -/
def Output.Sink.narrow : Sink where
  capacity := some 10
  chunk := some 3
  portion := fun writes n => min n (writes % 3 + 1)
  refusal := .nothing

/-- The first ten bytes of a longer document arrive, and the run fails. -/
theorem extract_truncates_narrow : Sink.narrow.Willing ∧
    ∃ t, Language.json.parseTree "a.json" "[1, \"é\"]" none = .ok t ∧
      (extract { pretty := true } .json "a.json" "[1, \"é\"]" .narrow).sink.accepted =
        (Document.bytes Language.json.vocabulary ⟨.stream, .pretty⟩ t).extract 0
          (min 10 (Document.bytes Language.json.vocabulary ⟨.stream, .pretty⟩ t).size) ∧
      ((∃ summary, (extract { pretty := true } .json "a.json" "[1, \"é\"]" .narrow).result =
          .ok summary) ↔
        (Document.bytes Language.json.vocabulary ⟨.stream, .pretty⟩ t).size ≤ 10 ∧
          Sink.narrow.flushError = none) ∧
      ∀ f, (extract { pretty := true } .json "a.json" "[1, \"é\"]" .narrow).result = .error f →
        ∃ cause, f = .unwritable cause := by
  have hwilling : Sink.narrow.Willing := by
    intro h
    cases h
  have hok : (Language.json.parseTree "a.json" "[1, \"é\"]" none).toOption.isSome = true := by
    decide +kernel
  obtain ⟨t, ht⟩ := Language.exists_parseTree hok
  have htruncates :=
    extract_truncates { pretty := true } .json "a.json" "[1, \"é\"]" hwilling rfl rfl
  exact ⟨hwilling, t, ht, htruncates.1 t ht⟩

end ConcreteSyntax
