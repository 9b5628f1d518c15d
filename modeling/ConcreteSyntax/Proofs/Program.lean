import ConcreteSyntax.Command.Program
import ConcreteSyntax.Proofs.Extraction
import ConcreteSyntax.Proofs.Loading

/-! # The law of a whole run

A run of the program ends with status zero or one.  With status one nothing is on standard output; with status
zero there is one of four things (`Prints`): help, the version, the list of languages, or the document of a
source.

* **Success** (`Extracts`).  A document is printed exactly if the command line is right, its language
  registered, the input loaded and the source parsed.
* **Failure** (`pipeline_cases`).  Nothing is written before a tree is there, and writing to standard output
  does not fail, so a run that fails leaves it empty.
* **Inputs** (`Inputs.load_eq_ok_iff`).  What it means that an input is loaded. -/

namespace ConcreteSyntax

open Document (utf8)
open Output (Sink)

/-! ### Languages -/

theorem Language.ofName?_eq_some_iff {name : String} {l : Language} :
    Language.ofName? name = some l ↔ l.name = name := by
  constructor
  · intro h
    have hfound := List.find?_some h
    simpa using hfound
  · rintro rfl
    cases l <;> rfl

theorem Language.exists_text_listing :
    ∃ text : String,
      text.toUTF8.data.toList = (Language.listing.pieces .compact).flatMap (·.data.toList) ∧
      ∀ w, Json.Decodes text.toList w ↔ w = Language.listing := by
  obtain ⟨cs, hcs, hspells⟩ := Document.exists_spells_pieces Language.listing .compact
  rw [Document.toList_foldl_append] at hcs
  have htext : Language.listing.json.IsText cs :=
    ⟨[], cs, [], (by intro c hc; cases hc), hspells, (by intro c hc; cases hc), by simp⟩
  have hdecodes : Json.Decodes cs Language.listing := ⟨_, htext, Document.value?_json _⟩
  refine ⟨String.ofList cs, ?_, fun w => ?_⟩
  · rw [Document.toList_toUTF8, String.toList_ofList, ← hcs]
    rfl
  · rw [String.toList_ofList]
    exact ⟨fun hw => hw.unique hdecodes, fun hw => hw ▸ hdecodes⟩

namespace Command

/-! ### What a run does -/

/-- The command line asks for neither help nor the version nor the list of languages. -/
def Invocation.IsExtraction (i : Invocation) : Prop :=
  parseArguments i.arguments i.environment = .error .invalid ∨
    ∃ a, parseArguments i.arguments i.environment = .ok a ∧ a.listLanguages = false

/-- All stages of an extraction succeed: the arguments name the language `l`, the source is loaded from the
file, or else from standard input, and its tree is `t`. -/
structure Extracts (a : Arguments) (w : Inputs) (l : Language) (source : String)
    (t : Tree l.Rules) : Prop where
  extraction : a.listLanguages = false
  language : a.language = some l.name
  loaded : w.load (.ofPath a.file) a.maxInputBytes = .ok source
  parsed : l.parseTree (Input.ofPath a.file).origin source a.callLimit = .ok t

/-- What a run that succeeds leaves on standard output. -/
inductive Prints (i : Invocation) : ByteArray → Prop
  | help {long : Bool} : parseArguments i.arguments i.environment = .error (.help long) →
      Prints i (if long then longHelp i.environment else shortHelp i.environment).toUTF8
  | version : parseArguments i.arguments i.environment = .error .version →
      Prints i versionText.toUTF8
  | languages {a : Arguments} {text : String} :
      parseArguments i.arguments i.environment = .ok a → a.listLanguages = true →
      text.toUTF8.data.toList = (Language.listing.pieces .compact).flatMap (·.data.toList) →
      (∀ w, Json.Decodes text.toList w ↔ w = Language.listing) → Prints i text.toUTF8
  | document {a : Arguments} {l : Language} {source : String} {t : Tree l.Rules} {text : String} :
      parseArguments i.arguments i.environment = .ok a → Extracts a i.inputs l source t →
      extractToString ⟨a.strategy, a.pretty, a.maxInputBytes, a.callLimit⟩ l source = .ok text →
      Prints i text.toUTF8

/-! ### Stages -/

theorem exitCode_eq_one (f : Failure) : f.exitCode = 1 := by
  cases f <;> rfl

/-- A pipeline into standard output writes the document if the source is loaded and parsed; otherwise it fails
as loading or parsing does and writes nothing. -/
theorem pipeline_cases (o : Options) (l : Language) (w : Inputs) (input : Input) :
    (∃ source t, w.load input o.maxInputBytes = .ok source ∧
      l.parseTree input.origin source o.callLimit = .ok t ∧
      (runPipeline o l w input {}).result = .ok (summaryOf l source t) ∧
      (runPipeline o l w input {}).sink.accepted = Document.bytes l.vocabulary o.document t) ∨
    ((∀ source t, w.load input o.maxInputBytes = .ok source →
        l.parseTree input.origin source o.callLimit ≠ .ok t) ∧
      (∃ f, (runPipeline o l w input {}).result = .error f ∧
        (w.load input o.maxInputBytes = .error f ∨
          ∃ source, w.load input o.maxInputBytes = .ok source ∧
            l.parseTree input.origin source o.callLimit = .error f)) ∧
      (runPipeline o l w input {}).sink.accepted = .empty) := by
  unfold runPipeline extractLoaded
  cases hload : w.load input o.maxInputBytes with
  | error f => exact .inr ⟨fun source t h => (by cases h), ⟨f, rfl, .inl rfl⟩, rfl⟩
  | ok source =>
      cases hparse : l.parseTree input.origin source o.callLimit with
      | error f =>
          refine .inr ⟨fun source' t h => ?_, ⟨f, ?_, .inr ⟨source, rfl, hparse⟩⟩, ?_⟩
          · cases h
            rw [hparse]
            intro h
            cases h
          · simp only [extract_of_error hparse]
          · simp only [extract_of_error hparse]
      | ok t =>
          obtain ⟨haccepted, hresult⟩ := extract_unlimited hparse
          refine .inl ⟨source, t, rfl, hparse, ?_, ?_⟩
          · simp only [hresult]
          · simp only [hresult]
            exact haccepted

theorem execute_listing {a : Arguments} (h : a.listLanguages = true) (w : Inputs) :
    ∃ text : String, (execute a w {}).2.2 = .ok () ∧ (execute a w {}).1.accepted = text.toUTF8 ∧
      text.toUTF8.data.toList = (Language.listing.pieces .compact).flatMap (·.data.toList) ∧
      ∀ w, Json.Decodes text.toList w ↔ w = Language.listing := by
  obtain ⟨htaken, hstop⟩ :=
    Sink.deliver_unlimited Sink.willing_default rfl (Language.listing.pieces .compact)
  obtain ⟨text, htext, hdecodes⟩ := Language.exists_text_listing
  have hwrite : Language.writeListing {} = ((Language.writeListing {}).1, none) := Prod.ext rfl hstop
  have hexecute : execute a w {} = ((Language.writeListing {}).1, [], .ok ()) := by
    rw [execute, if_pos h, hwrite]
  rw [hexecute]
  exact ⟨text, rfl, ByteArray.ext (Array.toList_inj.mp (htaken.trans htext.symm)), htext, hdecodes⟩

theorem execute_unsupported {a : Arguments} (h : a.listLanguages = false) {name : String}
    (hname : a.language = some name) (hnone : ∀ l : Language, l.name ≠ name) (w : Inputs) (sink : Sink) :
    execute a w sink = (sink, [], .error (.unsupportedLanguage name)) := by
  have hresolve : Language.ofName? name = none :=
    Option.eq_none_iff_forall_ne_some.mpr fun l hl => hnone l (Language.ofName?_eq_some_iff.mp hl)
  rw [execute, if_neg (by rw [h]; exact Bool.false_ne_true), hname]
  simp only [resolve, hresolve]

theorem execute_unregistered {a : Arguments} (h : a.listLanguages = false)
    (hname : ∀ l : Language, a.language ≠ some l.name) (w : Inputs) :
    (∃ f, (execute a w {}).2.2 = .error f) ∧ (execute a w {}).1.accepted = .empty := by
  cases hlanguage : a.language with
  | none =>
      rw [execute, if_neg (by rw [h]; exact Bool.false_ne_true), hlanguage]
      exact ⟨⟨_, rfl⟩, rfl⟩
  | some name =>
      have hnone : ∀ l : Language, l.name ≠ name := by
        intro l hl
        exact hname l (by rw [hlanguage, hl])
      rw [execute_unsupported h hlanguage hnone]
      exact ⟨⟨_, rfl⟩, rfl⟩

theorem execute_registered {a : Arguments} (h : a.listLanguages = false) {l : Language}
    (hname : a.language = some l.name) (w : Inputs) :
    (execute a w {}).1 = (runPipeline a.options l w (.ofPath a.file) {}).sink ∧
      (execute a w {}).2.2 = (runPipeline a.options l w (.ofPath a.file) {}).result.map fun _ => () := by
  have hresolve : resolve l.name = .ok l := by
    rw [resolve, Language.ofName?_eq_some_iff.mpr rfl]
  rw [execute, if_neg (by rw [h]; exact Bool.false_ne_true), hname]
  simp only [hresolve]
  cases (runPipeline a.options l w (.ofPath a.file) {}).result <;> exact ⟨rfl, rfl⟩

/-- An extraction either writes the document that its stages give, or a stage fails and nothing is written. -/
theorem execute_cases {a : Arguments} (h : a.listLanguages = false) (w : Inputs) :
    (∃ l source t, Extracts a w l source t ∧ (execute a w {}).2.2 = .ok () ∧
      (execute a w {}).1.accepted = Document.bytes l.vocabulary a.options.document t) ∨
    ((∀ l source t, ¬ Extracts a w l source t) ∧ (∃ f, (execute a w {}).2.2 = .error f) ∧
      (execute a w {}).1.accepted = .empty) := by
  by_cases hname : ∃ l : Language, a.language = some l.name
  · obtain ⟨l, hname⟩ := hname
    obtain ⟨hsink, hresult⟩ := execute_registered h hname w
    rw [hsink, hresult]
    rcases pipeline_cases a.options l w (.ofPath a.file) with
      ⟨source, t, hload, hparse, hok, haccepted⟩ | ⟨hno, ⟨f, herror, _⟩, haccepted⟩
    · rw [hok]
      exact .inl ⟨l, source, t, ⟨h, hname, hload, hparse⟩, rfl, haccepted⟩
    · rw [herror]
      refine .inr ⟨fun l' source t hx => ?_, ⟨f, rfl⟩, haccepted⟩
      -- the arguments name one language only
      have hsame : l = l' := by
        have hnames : l'.name = l.name := Option.some.inj (hx.language.symm.trans hname)
        have hresolve := Language.ofName?_eq_some_iff.mpr hnames
        rw [Language.ofName?_eq_some_iff.mpr rfl] at hresolve
        exact Option.some.inj hresolve
      subst hsame
      exact hno source t hx.loaded hx.parsed
  · have hname : ∀ l : Language, a.language ≠ some l.name := fun l hl => hname ⟨l, hl⟩
    obtain ⟨hresult, haccepted⟩ := execute_unregistered h hname w
    exact .inr ⟨fun l source t hx => hname l hx.language, hresult, haccepted⟩

/-! ### Runs -/

/-- A run with arguments leaves on standard output what was written, and its status says whether it failed. -/
theorem run_of_ok {i : Invocation} {a : Arguments}
    (h : parseArguments i.arguments i.environment = .ok a) :
    (run i).stdout = (execute a i.inputs {}).1.accepted ∧
      ((execute a i.inputs {}).2.2 = .ok () → (run i).exitCode = 0) ∧
      ∀ f, (execute a i.inputs {}).2.2 = .error f → (run i).exitCode = 1 := by
  rw [run, h]
  rcases hx : execute a i.inputs {} with ⟨sink, events, result⟩
  cases result with
  | ok u =>
      simp only [hx]
      exact ⟨trivial, fun _ => trivial, fun f hf => by cases hf⟩
  | error f =>
      simp only [hx]
      exact ⟨trivial, fun hf => (by cases hf), fun _ _ => exitCode_eq_one f⟩

/-- A run succeeds and prints what it was asked for, or it fails, prints nothing, and was asked for an
extraction of which a stage fails. -/
theorem run_cases (i : Invocation) :
    ((run i).exitCode = 0 ∧ Prints i (run i).stdout) ∨
    ((run i).exitCode = 1 ∧ (run i).stdout = .empty ∧
      ∀ a l source t, parseArguments i.arguments i.environment = .ok a →
        ¬ Extracts a i.inputs l source t) := by
  cases hargs : parseArguments i.arguments i.environment with
  | error stop =>
      cases stop with
      | help long =>
          rw [run, hargs]
          exact .inl ⟨rfl, .help hargs⟩
      | version =>
          rw [run, hargs]
          exact .inl ⟨rfl, .version hargs⟩
      | invalid =>
          rw [run, hargs]
          exact .inr ⟨rfl, rfl, fun a l source t ha => by cases ha⟩
  | ok a =>
      obtain ⟨hstdout, hok, herror⟩ := run_of_ok hargs
      rw [hstdout]
      cases hlist : a.listLanguages with
      | true =>
          obtain ⟨text, hresult, haccepted, htext, hdecodes⟩ := execute_listing hlist i.inputs
          rw [haccepted]
          exact .inl ⟨hok hresult, .languages hargs hlist htext hdecodes⟩
      | false =>
          rcases execute_cases hlist i.inputs with
            ⟨l, source, t, hx, hresult, haccepted⟩ | ⟨hno, ⟨f, hresult⟩, haccepted⟩
          · rw [haccepted, ← Language.toUTF8_text_parseTree hx.parsed]
            have htext : extractToString a.options l source = .ok _ := extractToString_of_ok hx.parsed
            exact .inl ⟨hok hresult, .document hargs hx htext⟩
          · refine .inr ⟨herror f hresult, haccepted, fun a' l source t ha => ?_⟩
            cases ha
            exact hno l source t

theorem Prints.exists_extracts {i : Invocation} {stdout : ByteArray} (h : Prints i stdout)
    (hextraction : i.IsExtraction) :
    ∃ a l source t, parseArguments i.arguments i.environment = .ok a ∧
      Extracts a i.inputs l source t := by
  cases h with
  | help hargs =>
      rcases hextraction with hinvalid | ⟨a, hok, _⟩
      · cases hargs.symm.trans hinvalid
      · cases hargs.symm.trans hok
  | version hargs =>
      rcases hextraction with hinvalid | ⟨a, hok, _⟩
      · cases hargs.symm.trans hinvalid
      · cases hargs.symm.trans hok
  | languages hargs hlist =>
      rcases hextraction with hinvalid | ⟨a, hok, hno⟩
      · cases hargs.symm.trans hinvalid
      · cases hargs.symm.trans hok
        cases hlist.symm.trans hno
  | document hargs hx => exact ⟨_, _, _, _, hargs, hx⟩

/-- **The law of a whole run.**  The status is zero or one; with status one standard output is empty; with
status zero it holds help, the version, the list of languages, or the document of the source.  An
extraction has status zero exactly if the command line is read, names a registered language, and the input
can be loaded and parsed.  To be loaded, an input has to hold the UTF-8 form of a text, and to be within the limit
on record and in fact. -/
theorem run_exitCode_stdout (i : Invocation) :
    ((run i).exitCode = 0 ∨ (run i).exitCode = 1) ∧
    ((run i).exitCode = 1 → (run i).stdout = .empty) ∧
    ((run i).exitCode = 0 → Prints i (run i).stdout) ∧
    (i.IsExtraction → ((run i).exitCode = 0 ↔
      ∃ a l source t, parseArguments i.arguments i.environment = .ok a ∧
        Extracts a i.inputs l source t)) ∧
    (∀ input limit source, i.inputs.Counted input →
      (i.inputs.load input limit = .ok source ↔
        i.inputs.Holds input (utf8 source.toList) ∧
          ∀ max, limit = some max →
            i.inputs.recorded input ≤ max ∧ (utf8 source.toList).length ≤ max)) := by
  refine ⟨?_, ?_, ?_, ?_, fun input limit source hcounted => Inputs.load_eq_ok_iff hcounted limit source⟩
  · exact (run_cases i).imp And.left And.left
  · intro hone
    rcases run_cases i with ⟨hzero, _⟩ | ⟨_, hempty, _⟩
    · omega
    · exact hempty
  · intro hzero
    rcases run_cases i with ⟨_, hprints⟩ | ⟨hone, _⟩
    · exact hprints
    · omega
  · intro hextraction
    rcases run_cases i with ⟨hzero, hprints⟩ | ⟨hone, _, hno⟩
    · exact ⟨fun _ => hprints.exists_extracts hextraction, fun _ => hzero⟩
    · refine ⟨fun hzero => by omega, ?_⟩
      rintro ⟨a, l, source, t, hargs, hx⟩
      exact absurd hx (hno a l source t hargs)

/-- An array on standard input, given in two parts with an interruption between them. -/
def Invocation.array : Invocation where
  arguments := ["Json", "--pretty"]
  environment := fun _ => none
  inputs := { stdin := [.bytes (utf8 "[1".toList), .interrupted, .bytes (utf8 "]".toList)] }

theorem run_exitCode_stdout_array :
    Invocation.array.IsExtraction ∧ Invocation.array.inputs.load .stdin none = .ok "[1]" ∧
      (run .array).exitCode = 0 ∧ Prints .array (run .array).stdout := by
  have hread : (parseArguments Invocation.array.arguments Invocation.array.environment).toOption =
      some { language := some "Json", pretty := true } := by
    decide +kernel
  have hparse : (Language.json.parseTree Input.stdin.origin "[1]" none).toOption.isSome = true := by
    decide +kernel
  have hcounted : Invocation.array.inputs.Counted .stdin := .inl (by decide +kernel)
  have hholds : ReadEvent.given Invocation.array.inputs.stdin = (utf8 "[1]".toList, none) := by
    decide +kernel
  obtain ⟨t, ht⟩ := Language.exists_parseTree hparse
  obtain ⟨_, _, hprints, hiff, hload⟩ := run_exitCode_stdout .array
  have hloaded : Invocation.array.inputs.load .stdin none = .ok "[1]" :=
    (hload .stdin none "[1]" hcounted).mpr ⟨hholds, fun max hmax => by cases hmax⟩
  cases hargs : parseArguments Invocation.array.arguments Invocation.array.environment with
  | error stop =>
      rw [hargs] at hread
      cases hread
  | ok a =>
      rw [hargs] at hread
      cases hread
      have hextraction : Invocation.array.IsExtraction := .inr ⟨_, hargs, rfl⟩
      have hzero := (hiff hextraction).mpr ⟨_, .json, "[1]", t, hargs, rfl, rfl, hloaded, ht⟩
      exact ⟨hextraction, hloaded, hzero, hprints hzero⟩

end Command

end ConcreteSyntax
