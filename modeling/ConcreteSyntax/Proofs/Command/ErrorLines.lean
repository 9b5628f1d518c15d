import ConcreteSyntax.Proofs.Program

/-! # What a failed run reports

A run that fails leaves its error on standard error, on a line unless a full report or a log is asked for.

* **Stages** (`Fails`).  What a run fails with: the command line, the name of the language, loading or parsing.
* **Quotations** (`Failure.quotations`).  A message is made of fixed words, numbers and texts that it repeats.
  Only these can hold line ends (`lineEnds_message`), and they are taken over as they are: the name of a language
  with a line end in it gives an error of two lines (`Invocation.brokenName`).
* **Where quotations come from** (`Invocation.Supplies`).  A text with a line end in it is the language or the file
  of the command line, or what the system says about an input that cannot be read (`Fails.supplies`).  Nothing of
  the input itself is repeated. -/

namespace ConcreteSyntax

open Document (utf8)

/-! ### Line ends -/

def lineEnds (s : String) : Nat := s.toList.count '\n'

theorem lineEnds_append (s s' : String) : lineEnds (s ++ s') = lineEnds s + lineEnds s' := by
  rw [lineEnds, String.toList_append, List.count_append]
  rfl

theorem lineEnds_repr (n : Nat) : lineEnds n.repr = 0 := by
  rw [lineEnds, Nat.toList_repr, List.count_eq_zero]
  intro h
  exact absurd (Document.isDigit_of_mem_toDigits h) (by decide)

theorem lineEnds_name (l : Language) : lineEnds l.name = 0 := by
  cases l <;> decide

theorem lineEnds_join_eq_zero {texts : List String} (h : ∀ s ∈ texts, lineEnds s = 0) :
    lineEnds (String.join texts) = 0 := by
  rw [lineEnds, List.count_eq_zero, String.toList_join, List.mem_flatMap]
  rintro ⟨s, hs, hend⟩
  exact List.count_eq_zero.mp (h s hs) hend

/-! ### Quotations -/

/-- The texts from outside that the message of a failure repeats. -/
def Failure.quotations : Failure → List String
  | invalidArguments _ | mismatched _ => []
  | unsupportedLanguage name => [name]
  | unreadable origin cause => [origin, cause]
  | undecodable origin _ => [origin]
  | unwritable cause => [cause]
  | exhausted _ reason => [reason]

theorem Failure.mem_quotations_unreadable {origin cause q : String} :
    q ∈ (Failure.unreadable origin cause).quotations ↔ q = origin ∨ q = cause := by
  rw [quotations, List.mem_cons, List.mem_singleton]

/-- The line ends of a message are those of the texts it repeats. -/
theorem lineEnds_message (f : Failure) : lineEnds f.message = lineEnds (String.join f.quotations) := by
  have hnone : lineEnds "" = 0 := rfl
  cases f with
  | invalidArguments detail =>
      change lineEnds "Invalid arguments" = lineEnds ""
      decide
  | unsupportedLanguage name =>
      have hwords : lineEnds "Invalid parser selected: " = 0 := by decide
      change lineEnds ("Invalid parser selected: " ++ name) = lineEnds ("" ++ name)
      rw [lineEnds_append, lineEnds_append, hwords, hnone]
  | unreadable origin cause =>
      have hwords : lineEnds "Could not read " = 0 ∧ lineEnds ": " = 0 := by decide
      change lineEnds ("Could not read " ++ origin ++ ": " ++ cause) = lineEnds ("" ++ origin ++ cause)
      simp only [lineEnds_append, hwords, hnone, Nat.add_zero]
  | undecodable origin fault =>
      have hwords : lineEnds "Could not decode " = 0 ∧ lineEnds ": input is not valid UTF-8" = 0 := by decide
      change lineEnds ("Could not decode " ++ origin ++ ": input is not valid UTF-8") = lineEnds ("" ++ origin)
      simp only [lineEnds_append, hwords, hnone, Nat.add_zero]
  | unwritable cause =>
      have hwords : lineEnds "Could not write the encoded document: " = 0 := by decide
      change lineEnds ("Could not write the encoded document: " ++ cause) = lineEnds ("" ++ cause)
      rw [lineEnds_append, lineEnds_append, hwords, hnone]
  | mismatched m =>
      have hwords : lineEnds "Input does not match the " = 0 ∧ lineEnds " grammar at line " = 0 ∧
          lineEnds ", column " = 0 := by decide
      change lineEnds ("Input does not match the " ++ m.language.name ++ " grammar at line " ++ m.line.repr ++
        ", column " ++ m.column.repr) = lineEnds ""
      simp only [lineEnds_append, hwords, lineEnds_name, lineEnds_repr, hnone]
  | exhausted stage reason =>
      have hwords : lineEnds "Resource exhausted while " = 0 ∧ lineEnds ": " = 0 := by decide
      have hstage : lineEnds stage.name = 0 := by cases stage <;> decide
      change lineEnds ("Resource exhausted while " ++ stage.name ++ ": " ++ reason) = lineEnds ("" ++ reason)
      simp only [lineEnds_append, hwords, hstage, hnone, Nat.add_zero]

/-! ### Results -/

section Results

variable {ε ε' α β : Type} {e : ε} {b : β}

theorem exists_of_bind_eq_ok {x : Except ε α} {k : α → Except ε β} (h : x >>= k = .ok b) :
    ∃ a, x = .ok a ∧ k a = .ok b := by
  cases x with
  | error e => cases h
  | ok a => exact ⟨a, rfl, h⟩

theorem or_of_bind_eq_error {x : Except ε α} {k : α → Except ε β} (h : x >>= k = .error e) :
    x = .error e ∨ ∃ a, x = .ok a ∧ k a = .error e := by
  cases x with
  | error e' =>
      cases h
      exact .inl rfl
  | ok a => exact .inr ⟨a, rfl, h⟩

theorem exists_of_mapError_eq_error {x : Except ε' α} {g : ε' → ε} (h : x.mapError g = .error e) :
    ∃ e', x = .error e' ∧ g e' = e := by
  cases x with
  | error e' =>
      cases h
      exact ⟨e', rfl, rfl⟩
  | ok a => cases h

theorem eq_ok_of_toOption {x : Except ε α} {a : α} (h : x.toOption = some a) : x = .ok a := by
  cases x with
  | error e => cases h
  | ok a' =>
      cases h
      rfl

end Results

/-! ### What the stages repeat -/

/-- Parsing repeats nothing: neither the source nor its name. -/
theorem Language.lineEnds_of_parseTree {l : Language} {origin source : String} {limit : Option Nat} {f : Failure}
    (h : l.parseTree origin source limit = .error f) : ∀ q ∈ f.quotations, lineEnds q = 0 := by
  simp only [Language.parseTree] at h
  split at h
  next why _ =>
    cases h
    cases why <;> decide
  next =>
    cases h
    intro q hq
    cases hq
  next =>
    split at h
    · cases h
    · cases h
      intro q hq
      cases hq

theorem failed_mem_of_readToEnd {events : List ReadEvent} {left : Option Nat} {acc : List UInt8} {cause : String}
    (h : readToEnd events left acc = .error cause) : .failed cause ∈ events := by
  fun_induction readToEnd events left acc with
  | case1 => cases h
  | case2 => cases h
  | case3 => cases h
  | case4 events acc chunk _ _ ih => exact .tail _ (ih h)
  | case5 events acc chunk _ n _ ih => exact .tail _ (ih h)
  | case6 events left acc _ ih => exact .tail _ (ih h)
  | case7 events left acc _ cause' =>
      cases h
      exact .head _

theorem lineEnds_of_checkLimit {size : Nat} {limit : Option Nat} {f : Failure}
    (h : checkLimit size limit = .error f) : ∀ q ∈ f.quotations, lineEnds q = 0 := by
  have hwords : lineEnds "input is larger than the " = 0 ∧ lineEnds " byte limit" = 0 := by decide
  unfold checkLimit at h
  cases limit with
  | none => cases h
  | some max =>
      simp only at h
      split at h
      · cases h
        intro q hq
        obtain rfl := List.mem_singleton.mp hq
        change lineEnds ("input is larger than the " ++ max.repr ++ " byte limit") = 0
        simp only [lineEnds_append, hwords, lineEnds_repr]
      · cases h

theorem lineEnds_of_load {events : List ReadEvent} {origin : String} {limit : Option Nat} {sizeHint : Nat}
    {f : Failure} (h : load events origin limit sizeHint = .error f) :
    ∀ q ∈ f.quotations, lineEnds q = 0 ∨ q = origin ∨ .failed q ∈ events := by
  unfold load at h
  split at h
  · cases h
    intro q hq
    obtain rfl := List.mem_singleton.mp hq
    exact .inl (by decide)
  · rcases or_of_bind_eq_error h with h | ⟨bytes, _, h⟩
    · obtain ⟨cause, hread, rfl⟩ := exists_of_mapError_eq_error h
      intro q hq
      rcases Failure.mem_quotations_unreadable.mp hq with rfl | rfl
      · exact .inr (.inl rfl)
      · exact .inr (.inr (failed_mem_of_readToEnd hread))
    · rcases or_of_bind_eq_error h with h | ⟨_, _, h⟩
      · exact fun q hq => .inl (lineEnds_of_checkLimit h q hq)
      · obtain ⟨fault, _, rfl⟩ := exists_of_mapError_eq_error h
        exact fun q hq => .inr (.inl (List.mem_singleton.mp hq))

/-- Loading an input repeats its name and the words of whoever opens or reads it. -/
theorem Inputs.lineEnds_of_load {w : Inputs} {input : Input} {limit : Option Nat} {f : Failure}
    (h : w.load input limit = .error f) : ∀ q ∈ f.quotations,
      lineEnds q = 0 ∨ q = input.origin ∨ .failed q ∈ w.reader input ∨
        ∃ path, input = .file path ∧ w.openFile path = .refused q := by
  cases input with
  | stdin =>
      intro q hq
      exact (ConcreteSyntax.lineEnds_of_load h q hq).imp_right (Or.imp_right Or.inl)
  | file path =>
      rw [Inputs.load] at h
      rw [Inputs.reader]
      intro q hq
      cases hfile : w.openFile path with
      | refused cause =>
          rw [hfile] at h
          cases h
          rcases Failure.mem_quotations_unreadable.mp hq with rfl | rfl
          · exact .inr (.inl rfl)
          · exact .inr (.inr (.inr ⟨path, rfl, hfile⟩))
      | directory =>
          rw [hfile] at h
          cases h
          rcases Failure.mem_quotations_unreadable.mp hq with rfl | rfl
          · exact .inr (.inl rfl)
          · exact .inl (by decide)
      | regular size reader =>
          rw [hfile] at h
          rcases or_of_bind_eq_error h with h | ⟨_, _, h⟩
          · exact .inl (lineEnds_of_checkLimit h q hq)
          · exact (ConcreteSyntax.lineEnds_of_load h q hq).imp_right (Or.imp_right Or.inl)

namespace Command

/-! ### Failures of a run -/

/-- What a run fails with: its command line is not right, its language is not registered, its input cannot be loaded,
or the source has no tree. -/
inductive Fails (i : Invocation) : Failure → Prop
  | arguments : parseArguments i.arguments i.environment = .error .invalid → Fails i (.invalidArguments none)
  | language {a : Arguments} {name : String} :
      parseArguments i.arguments i.environment = .ok a → a.listLanguages = false → a.language = some name →
      (∀ l : Language, l.name ≠ name) → Fails i (.unsupportedLanguage name)
  | loading {a : Arguments} {l : Language} {f : Failure} :
      parseArguments i.arguments i.environment = .ok a → a.listLanguages = false → a.language = some l.name →
      i.inputs.load (.ofPath a.file) a.maxInputBytes = .error f → Fails i f
  | parsing {a : Arguments} {l : Language} {source : String} {f : Failure} :
      parseArguments i.arguments i.environment = .ok a → a.listLanguages = false → a.language = some l.name →
      i.inputs.load (.ofPath a.file) a.maxInputBytes = .ok source →
      l.parseTree (Input.ofPath a.file).origin source a.callLimit = .error f → Fails i f

theorem exists_language_of_parseArguments {arguments : List String} {env : Environment} {a : Arguments}
    (h : parseArguments arguments env = .ok a) (hlist : a.listLanguages = false) :
    ∃ name, a.language = some name := by
  -- whatever the options are, a language is asked for at the end
  obtain ⟨d, _, h⟩ := exists_of_bind_eq_ok h
  obtain ⟨strategy, _, h⟩ := exists_of_bind_eq_ok h
  obtain ⟨pretty, _, h⟩ := exists_of_bind_eq_ok h
  obtain ⟨maxInputBytes, _, h⟩ := exists_of_bind_eq_ok h
  obtain ⟨callLimit, _, h⟩ := exists_of_bind_eq_ok h
  simp only at h
  split at h
  next hl =>
    split at h
    · cases h
    · cases h
      cases hl.symm.trans hlist
  next =>
    split at h
    · cases h
    next hname =>
      cases h
      exact Option.ne_none_iff_exists'.mp fun hnone => hname (Option.isNone_iff_eq_none.mpr hnone)

/-- The work of a run fails with the failure of a stage. -/
theorem fails_of_execute {i : Invocation} {a : Arguments} (hargs : parseArguments i.arguments i.environment = .ok a)
    {f : Failure} (hf : (execute a i.inputs {}).2.2 = .error f) : Fails i f := by
  have hlist : a.listLanguages = false := by
    refine Bool.eq_false_iff.mpr fun hlist => ?_
    obtain ⟨_, hok, _⟩ := execute_listing hlist i.inputs
    cases hok.symm.trans hf
  obtain ⟨name, hname⟩ := exists_language_of_parseArguments hargs hlist
  by_cases hregistered : ∃ l : Language, l.name = name
  · obtain ⟨l, rfl⟩ := hregistered
    rw [(execute_registered hlist hname i.inputs).2] at hf
    rcases pipeline_cases a.options l i.inputs (.ofPath a.file) with
      ⟨_, _, _, _, hok, _⟩ | ⟨_, ⟨f', herror, hstage⟩, _⟩
    · rw [hok] at hf
      cases hf
    · rw [herror] at hf
      cases hf
      rcases hstage with hload | ⟨source, hload, hparse⟩
      · exact .loading hargs hlist hname hload
      · exact .parsing hargs hlist hname hload hparse
  · have hnone : ∀ l : Language, l.name ≠ name := fun l hl => hregistered ⟨l, hl⟩
    rw [execute_unsupported hlist hname hnone] at hf
    cases hf
    exact .language hargs hlist hname hnone

/-! ### Quiet runs -/

/-- Neither a full report is asked for nor is any event shown. -/
def Invocation.IsQuiet (i : Invocation) : Prop :=
  ∀ a, parseArguments i.arguments i.environment = .ok a →
    a.explain = false ∧ ∀ e, (LogFilter.ofRun a.verbose (i.environment "RUST_LOG")).shows e = false

theorem rank_levelOf_ofVerbose_le (verbose : Nat) (target : String) :
    ((LogFilter.ofVerbose verbose).levelOf target).rank ≤ (LogLevel.ofVerbose verbose).rank := by
  simp only [LogFilter.levelOf, LogFilter.ofVerbose, List.foldl_cons, List.foldl_nil]
  split
  · exact Nat.le_refl _
  · exact Nat.zero_le _

/-- At the first two levels of detail no event is shown. -/
theorem shows_ofVerbose {verbose : Nat} (h : verbose ≤ 1) (e : Event) :
    (LogFilter.ofVerbose verbose).shows e = false := by
  have hevent : 3 ≤ (Event.level e).rank := by
    cases e <;> simp [Event.level, LogLevel.rank]
  have hlevel : (LogLevel.ofVerbose verbose).rank ≤ 2 := by
    obtain rfl | rfl : verbose = 0 ∨ verbose = 1 := by omega
    · decide
    · decide
  have hshown := rank_levelOf_ofVerbose_le verbose (Event.target e)
  exact decide_eq_false (by omega)

theorem isQuiet_of_unset {i : Invocation} (henv : i.environment "RUST_LOG" = none)
    (h : ∀ a, parseArguments i.arguments i.environment = .ok a → a.explain = false ∧ a.verbose ≤ 1) :
    i.IsQuiet := by
  intro a hargs
  obtain ⟨hexplain, hverbose⟩ := h a hargs
  refine ⟨hexplain, fun e => ?_⟩
  rw [henv]
  exact shows_ofVerbose hverbose e

theorem logText_of_forall {filter : LogFilter} (h : ∀ e, filter.shows e = false) (elapsed : String)
    (events : List Event) : logText filter elapsed events = "" := by
  rw [logText, List.filter_eq_nil_iff.mpr fun e _ => by rw [h e]; exact Bool.false_ne_true]
  rfl

theorem stderr_of_execute {i : Invocation} (hquiet : i.IsQuiet) {a : Arguments}
    (h : parseArguments i.arguments i.environment = .ok a) {f : Failure}
    (hf : (execute a i.inputs {}).2.2 = .error f) (elapsed : String) :
    (run i).stderr elapsed = errorLine f := by
  obtain ⟨hexplain, hshows⟩ := hquiet a h
  rw [run, h]
  rcases hx : execute a i.inputs {} with ⟨sink, events, result⟩
  rw [hx] at hf
  obtain rfl : result = .error f := hf
  simp only [hx, Outcome.stderr, logText_of_forall hshows, hexplain]
  rfl

/-- A quiet run with status one fails with something, and its report is the line of that. -/
theorem exists_fails {i : Invocation} (hexit : (run i).exitCode = 1) (hquiet : i.IsQuiet) :
    ∃ f, Fails i f ∧ ∀ elapsed, (run i).stderr elapsed = errorLine f := by
  cases hargs : parseArguments i.arguments i.environment with
  | error stop =>
      rw [run, hargs] at hexit
      cases stop with
      | help long => cases hexit
      | version => cases hexit
      | invalid =>
          refine ⟨_, .arguments hargs, fun elapsed => ?_⟩
          rw [run, hargs]
          rfl
  | ok a =>
      cases hresult : (execute a i.inputs {}).2.2 with
      | ok u =>
          rw [(run_of_ok hargs).2.1 hresult] at hexit
          cases hexit
      | error f => exact ⟨f, fails_of_execute hargs hresult, stderr_of_execute hquiet hargs hresult⟩

/-! ### Where quotations come from -/

/-- The texts that a run is given and may repeat: the language and the file of its command line, and what the system
says when its input cannot be opened or read. -/
inductive Invocation.Supplies (i : Invocation) : String → Prop
  | language {a : Arguments} {name : String} :
      parseArguments i.arguments i.environment = .ok a → a.language = some name → i.Supplies name
  | path {a : Arguments} {path : String} :
      parseArguments i.arguments i.environment = .ok a → a.file = some path → i.Supplies path
  | reading {a : Arguments} {cause : String} :
      parseArguments i.arguments i.environment = .ok a → .failed cause ∈ i.inputs.reader (.ofPath a.file) →
      i.Supplies cause
  | opening {a : Arguments} {path cause : String} :
      parseArguments i.arguments i.environment = .ok a → a.file = some path →
      i.inputs.openFile path = .refused cause → i.Supplies cause

/-- A text with a line end that a failure repeats was given to the run. -/
theorem Fails.supplies {i : Invocation} {f : Failure} (h : Fails i f) :
    ∀ q ∈ f.quotations, lineEnds q = 0 ∨ i.Supplies q := by
  cases h with
  | arguments _ =>
      intro q hq
      cases hq
  | language hargs _ hname _ =>
      intro q hq
      obtain rfl := List.mem_singleton.mp hq
      exact .inr (.language hargs hname)
  | @loading a l f hargs _ _ hload =>
      intro q hq
      rcases Inputs.lineEnds_of_load hload q hq with hq | rfl | hq | ⟨path, hinput, hq⟩
      · exact .inl hq
      · cases hfile : a.file with
        | none => exact .inl (by decide)
        | some path => exact .inr (.path hargs hfile)
      · exact .inr (.reading hargs hq)
      · cases hfile : a.file with
        | none =>
            rw [hfile] at hinput
            cases hinput
        | some path' =>
            rw [hfile] at hinput
            cases hinput
            exact .inr (.opening hargs hfile hq)
  | parsing _ _ _ _ hparse => exact fun q hq => .inl (Language.lineEnds_of_parseTree hparse q hq)

/-! ### Error lines -/

theorem lineEnds_errorLine (f : Failure) : lineEnds (errorLine f) = 1 + lineEnds (String.join f.quotations) := by
  have hwords : lineEnds "error: " = 0 := by decide
  have hend : lineEnds "\n" = 1 := by decide
  rw [errorLine, lineEnds_append, lineEnds_append, lineEnds_message, hwords, hend]
  omega

/-- **Error lines.**  A quiet run with status one leaves on standard error the message of what it failed with, between
`error: ` and a line end.  The message adds the line ends of the texts it repeats and no others, and the texts with a
line end were given to the run.  If neither the language nor the path nor what the system said has one, standard
error is a single line, whatever the input holds. -/
theorem stderr_of_exitCode_one {i : Invocation} (hexit : (run i).exitCode = 1) (hquiet : i.IsQuiet) :
    ∃ f, Fails i f ∧ (∀ q ∈ f.quotations, lineEnds q = 0 ∨ i.Supplies q) ∧ ∀ elapsed,
      (run i).stderr elapsed = "error: " ++ f.message ++ "\n" ∧
      lineEnds ((run i).stderr elapsed) = 1 + lineEnds (String.join f.quotations) ∧
      ((∀ s, i.Supplies s → lineEnds s = 0) → lineEnds ((run i).stderr elapsed) = 1) := by
  obtain ⟨f, hfails, hstderr⟩ := exists_fails hexit hquiet
  refine ⟨f, hfails, hfails.supplies, fun elapsed => ?_⟩
  rw [hstderr elapsed]
  refine ⟨rfl, lineEnds_errorLine f, fun hsupplies => ?_⟩
  have hquotations : ∀ q ∈ f.quotations, lineEnds q = 0 := fun q hq =>
    (hfails.supplies q hq).elim id (hsupplies q)
  rw [lineEnds_errorLine, lineEnds_join_eq_zero hquotations]

/-- An array on standard input that goes over three lines and is not closed. -/
def Invocation.unclosed : Invocation where
  arguments := ["Json", "-v"]
  environment := fun _ => none
  inputs := { stdin := [.bytes (utf8 "[\n1,\n".toList), .interrupted, .bytes (utf8 "2".toList)] }

theorem stderr_of_exitCode_one_unclosed :
    (run .unclosed).exitCode = 1 ∧ Invocation.unclosed.IsQuiet ∧
      (∀ s, Invocation.unclosed.Supplies s → lineEnds s = 0) ∧
      ∃ f, Fails .unclosed f ∧ ∀ elapsed,
        (run .unclosed).stderr elapsed = "error: " ++ f.message ++ "\n" ∧
        lineEnds ((run .unclosed).stderr elapsed) = 1 := by
  have hargs : parseArguments Invocation.unclosed.arguments Invocation.unclosed.environment =
      .ok { language := some "Json", verbose := 1 } := eq_ok_of_toOption (by decide +kernel)
  have hexit : (run .unclosed).exitCode = 1 := by decide +kernel
  have hquiet : Invocation.unclosed.IsQuiet := by
    refine isQuiet_of_unset rfl fun a ha => ?_
    cases hargs.symm.trans ha
    exact ⟨rfl, Nat.le_refl 1⟩
  have hsupplies : ∀ s, Invocation.unclosed.Supplies s → lineEnds s = 0 := by
    intro s hs
    cases hs with
    | language ha hname =>
        cases hargs.symm.trans ha
        cases hname
        decide
    | path ha hfile =>
        cases hargs.symm.trans ha
        cases hfile
    | reading ha hfailed =>
        cases hargs.symm.trans ha
        simp [Inputs.reader, Input.ofPath, Invocation.unclosed] at hfailed
    | opening ha hfile _ =>
        cases hargs.symm.trans ha
        cases hfile
  obtain ⟨f, hfails, _, hstderr⟩ := stderr_of_exitCode_one hexit hquiet
  refine ⟨hexit, hquiet, hsupplies, f, hfails, fun elapsed => ?_⟩
  obtain ⟨htext, _, hone⟩ := hstderr elapsed
  exact ⟨htext, hone hsupplies⟩

/-- A language whose name has a line end in it. -/
def Invocation.brokenName : Invocation where
  arguments := ["Co\nbol"]
  environment := fun _ => none
  inputs := {}

/-- The name is repeated as it is, and the error goes over two lines. -/
theorem stderr_brokenName :
    (run .brokenName).exitCode = 1 ∧ Invocation.brokenName.IsQuiet ∧
      ∀ elapsed, (run .brokenName).stderr elapsed = "error: Invalid parser selected: Co\nbol\n" ∧
        lineEnds ((run .brokenName).stderr elapsed) = 2 := by
  have hargs : parseArguments Invocation.brokenName.arguments Invocation.brokenName.environment =
      .ok { language := some "Co\nbol" } := eq_ok_of_toOption (by decide +kernel)
  have hquiet : Invocation.brokenName.IsQuiet := by
    refine isQuiet_of_unset rfl fun a ha => ?_
    cases hargs.symm.trans ha
    exact ⟨rfl, Nat.zero_le 1⟩
  have hnone : ∀ l : Language, l.name ≠ "Co\nbol" := by
    intro l
    cases l <;> decide
  have hresult : (execute { language := some "Co\nbol" } Invocation.brokenName.inputs {}).2.2 =
      .error (.unsupportedLanguage "Co\nbol") := by
    rw [execute_unsupported rfl rfl hnone]
  refine ⟨(run_of_ok hargs).2.2 _ hresult, hquiet, fun elapsed => ?_⟩
  rw [stderr_of_execute hquiet hargs hresult]
  decide

end Command

end ConcreteSyntax
