import ConcreteSyntax.Command.Arguments

/-! # Command lines in any order

Arguments are read back from every command line that spells them, wherever its options stand.

* **Settings** (`Setting`).  What options set, one by one.  A draft is a list of settings, whose order says nothing,
  and a list of positionals (`Draft.settings`, `Draft.positionals`).
* **Spellings** (`Spelling`).  How an option is written: its value is the next word or stands behind an equals
  sign, and `-v` may be repeated within a word.
* **Accounts** (`Draft.Awaits`).  While a command line is read, what was set and what is still to come are together
  the draft that it spells.  One spelling keeps the account (`Draft.Awaits.spelling`), and so does a positional
  (`Draft.Awaits.positional`).  As no option is due twice, none is refused.

So the draft is the one that was spelled (`Draft.Awaits.readArguments_eq`), and the environment has nothing to
add to it (`parseArguments_of_spelled`). -/

namespace ConcreteSyntax.Command

open Document (Strategy)

/-! ### Numbers -/

theorem digits?_toDigits (n : Nat) : digits? (Nat.toDigits 10 n) = some n := by
  have hfold : ∀ (cs : List Char) (m : Nat), (∀ c ∈ cs, c.isDigit = true) →
      cs.foldlM (fun n c => if '0' ≤ c ∧ c ≤ '9' then some (10 * n + (c.toNat - 48)) else none) m =
        some (Nat.ofDigitChars 10 cs m) := by
    intro cs
    induction cs with
    | nil => intro m _; rfl
    | cons c cs ih =>
        intro m h
        obtain ⟨hc, hcs⟩ := List.forall_mem_cons.mp h
        have hrange : '0' ≤ c ∧ c ≤ '9' := by
          rw [Char.isDigit, Bool.and_eq_true, decide_eq_true_eq, decide_eq_true_eq] at hc
          exact hc
        rw [List.foldlM_cons, if_pos hrange]
        exact ih _ hcs
  have hne : (Nat.toDigits 10 n).isEmpty = false := by simp
  rw [digits?, hne, if_neg Bool.false_ne_true,
    hfold _ _ fun c hc => Nat.isDigit_of_mem_toDigits (by decide) (by decide) hc, Nat.ofDigitChars_ten_toDigits]

theorem toList_toString (n : Nat) : (toString n).toList = Nat.toDigits 10 n := by
  rw [Nat.toString_eq_repr, Nat.toList_repr]

theorem exists_toDigits_eq_cons (n : Nat) : ∃ c cs, Nat.toDigits 10 n = c :: cs ∧ c.isDigit = true := by
  cases h : Nat.toDigits 10 n with
  | nil => exact absurd h Nat.toDigits_ne_nil
  | cons c cs =>
      have hc : c ∈ Nat.toDigits 10 n := by rw [h]; exact List.mem_cons_self
      exact ⟨c, cs, rfl, Nat.isDigit_of_mem_toDigits (by decide) (by decide) hc⟩

theorem number?_toString {n : Nat} (h : n ≤ maxValue) : number? (toString n) = some n := by
  have hdigits := digits?_toDigits n
  obtain ⟨c, cs, hcs, hc⟩ := exists_toDigits_eq_cons n
  have hplus : c ≠ '+' := by
    rintro rfl
    cases hc
  rw [hcs] at hdigits
  rw [number?, toList_toString, hcs]
  simp [hdigits, hplus, h]

/-! ### Settings -/

/-- What an option sets. -/
inductive Setting where
  | strategy (s : Strategy)
  | maxInputBytes (n : Nat)
  | callLimit (n : Nat)
  | pretty (b : Bool)
  | explain
  | listLanguages
  /-- One level of detail. -/
  | verbose
deriving DecidableEq

namespace Setting

def option : Setting → Valued ⊕ Flag
  | strategy _ => .inl .strategy
  | maxInputBytes _ => .inl .maxInputBytes
  | callLimit _ => .inl .callLimit
  | pretty _ => .inr .pretty
  | explain => .inr .explain
  | listLanguages => .inr .listLanguages
  | verbose => .inr .verbose

/-- The value of a setting as it is written. -/
def text : Setting → String
  | strategy s => s.name
  | maxInputBytes n | callLimit n => toString n
  | _ => ""

/-- Whether a setting can be made on a command line. -/
def Allowed : Setting → Prop
  | maxInputBytes n => n ≤ maxValue
  | callLimit n => 0 < n ∧ n ≤ maxValue
  | pretty b => b = true
  | _ => True

end Setting

/-- The options that set something. -/
def settable : List (Valued ⊕ Flag) :=
  [.inl .strategy, .inl .maxInputBytes, .inl .callLimit, .inr .pretty, .inr .explain, .inr .listLanguages,
    .inr .verbose]

namespace Draft

variable {d goal : Draft} {o : Valued ⊕ Flag} {x : Setting} {xs : List Setting} {ps : List String}

/-- The settings of an option in a draft. -/
def given (d : Draft) : Valued ⊕ Flag → List Setting
  | .inl .strategy => d.strategy.toList.map .strategy
  | .inl .maxInputBytes => d.maxInputBytes.toList.map .maxInputBytes
  | .inl .callLimit => d.callLimit.toList.map .callLimit
  | .inr .pretty => d.pretty.toList.map .pretty
  | .inr .explain => List.replicate d.explain.toNat .explain
  | .inr .listLanguages => List.replicate d.listLanguages.toNat .listLanguages
  | .inr .verbose => List.replicate d.verbose .verbose
  | .inr .help | .inr .version => []

def settings (d : Draft) : List Setting := settable.flatMap d.given

def positionals (d : Draft) : List String := d.language.toList ++ d.file.toList

theorem length_positionals_le (d : Draft) : d.positionals.length ≤ 2 := by
  have hl : d.language.toList.length ≤ 1 := Option.length_toList_le
  have hf : d.file.toList.length ≤ 1 := Option.length_toList_le
  rw [positionals, List.length_append]
  omega

theorem positionals_get (h : d.language = none → d.file = none) :
    d.language = d.positionals[0]? ∧ d.file = d.positionals[1]? := by
  cases hl : d.language with
  | none => simp [positionals, hl, h hl]
  | some l => cases hf : d.file <;> simp [positionals, hl, hf]

theorem option_of_mem_given (h : x ∈ d.given o) : x.option = o := by
  rcases o with (_ | _ | _) | (_ | _ | _ | _ | _ | _) <;> simp [given] at h
  all_goals grind [Setting.option]

theorem filter_settings (d : Draft) (o : Valued ⊕ Flag) :
    d.settings.filter (·.option = o) = d.given o := by
  have hfilter : ∀ o', (d.given o').filter (·.option = o) = if o' = o then d.given o else [] := by
    intro o'
    split
    next ho =>
      subst ho
      exact List.filter_eq_self.mpr fun x hx => decide_eq_true (option_of_mem_given hx)
    next ho =>
      refine List.filter_eq_nil_iff.mpr fun x hx => ?_
      rw [option_of_mem_given hx, decide_eq_true_eq]
      exact ho
  rcases o with (_ | _ | _) | (_ | _ | _ | _ | _ | _) <;> simp [settings, settable, hfilter] <;> rfl

/-- The settings of one option are all the same, so their order does not matter. -/
theorem filter_eq_of_perm (h : xs.Perm d.settings) (o : Valued ⊕ Flag) :
    xs.filter (·.option = o) = d.given o := by
  have hvalue : ∀ {α : Type} {f : α → Setting} {old : Option α} {ys : List Setting},
      ys.Perm (old.toList.map f) → ys = old.toList.map f := by
    intro α f old ys h
    cases old with
    | none => exact List.perm_nil.mp h
    | some a => exact List.perm_singleton.mp h
  have hperm := h.filter (·.option = o)
  rw [filter_settings] at hperm
  rcases o with (_ | _ | _) | (_ | _ | _ | _ | _ | _)
  case inl.strategy | inl.maxInputBytes | inl.callLimit | inr.pretty => exact hvalue hperm
  case inr.explain | inr.listLanguages | inr.verbose => exact List.perm_replicate.mp hperm
  case inr.help | inr.version => exact List.perm_nil.mp hperm

def set (d : Draft) : Setting → Draft
  | .strategy s => { d with strategy := some s }
  | .maxInputBytes n => { d with maxInputBytes := some n }
  | .callLimit n => { d with callLimit := some n }
  | .pretty b => { d with pretty := some b }
  | .explain => { d with explain := true }
  | .listLanguages => { d with listLanguages := true }
  | .verbose => { d with verbose := d.verbose + 1 }

/-- Make a setting as the option that is written. -/
def make (d : Draft) (x : Setting) : Except Stop Draft :=
  match x.option with
  | .inl option => d.setValue option x.text
  | .inr flag => d.setFlag flag true

/-- The option of a setting can be set once more. -/
def Lacks (d : Draft) (x : Setting) : Prop := d.given x.option = [] ∨ x = .verbose ∧ d.verbose < maxVerbose

theorem given_set_of_ne (h : x.option ≠ o) : (d.set x).given o = d.given o := by
  cases x <;> rcases o with (_ | _ | _) | (_ | _ | _ | _ | _ | _) <;> first | rfl | exact absurd rfl h

theorem given_set_self (h : d.Lacks x) : (d.set x).given x.option = d.given x.option ++ [x] := by
  rcases h with h | ⟨rfl, _⟩
  · rw [h]
    cases x <;> simp_all [given, set, Setting.option]
  · exact List.replicate_succ'

theorem once_eq_ok {α : Type} {old new : Option α} {a : α} (hold : old = none) (hnew : new = some a) :
    once old new = .ok (some a) := by
  rw [hold, hnew]
  rfl

theorem make_eq_set (h : d.Lacks x) (hx : x.Allowed) : d.make x = .ok (d.set x) := by
  rcases h with h | ⟨rfl, h⟩
  · cases x with
    | strategy s =>
        have hd : d.strategy = none := by simpa [given, Setting.option] using h
        have hs : Strategy.ofName? s.name = some s := by cases s <;> rfl
        simp only [make, Setting.option, setValue, Setting.text, once_eq_ok hd hs]
        rfl
    | maxInputBytes n =>
        have hd : d.maxInputBytes = none := by simpa [given, Setting.option] using h
        simp only [make, Setting.option, setValue, Setting.text, once_eq_ok hd (number?_toString hx)]
        rfl
    | callLimit n =>
        have hd : d.callLimit = none := by simpa [given, Setting.option] using h
        have hn : positive? (toString n) = some n := by
          rw [positive?, number?_toString hx.2, Option.filter_some, if_pos]
          exact decide_eq_true (Nat.ne_of_gt hx.1)
        simp only [make, Setting.option, setValue, Setting.text, once_eq_ok hd hn]
        rfl
    | pretty b =>
        have hd : d.pretty = none := by simpa [given, Setting.option] using h
        have hb : some true = some b := congrArg some hx.symm
        simp only [make, Setting.option, setFlag, once_eq_ok hd hb]
        rfl
    | explain =>
        have hd : d.explain = false := by simpa [given, Setting.option] using h
        simp only [make, Setting.option, setFlag, hd]
        rfl
    | listLanguages =>
        have hd : d.listLanguages = false := by simpa [given, Setting.option] using h
        simp only [make, Setting.option, setFlag, hd]
        rfl
    | verbose =>
        have hd : d.verbose = 0 := by simpa [given, Setting.option] using h
        simp only [make, Setting.option, setFlag, set, hd]
        rfl
  · simp only [make, Setting.option, setFlag, Nat.min_eq_left h]
    rfl

/-! ### Accounts -/

/-- A draft that can be written. -/
structure Writable (d : Draft) : Prop where
  verbose : d.verbose ≤ maxVerbose
  file : d.file ≠ some ""
  languageFirst : d.language = none → d.file = none

/-- The settings `xs` and the positionals `ps` are what is still to come on the way to a draft. -/
structure Awaits (d : Draft) (xs : List Setting) (ps : List String) (goal : Draft) : Prop where
  given : ∀ o, d.given o ++ xs.filter (·.option = o) = goal.given o
  positionals : d.positionals ++ ps = goal.positionals
  languageFirst : d.language = none → d.file = none

/-- What is due can be set: no option but the one for detail is given twice by any draft. -/
theorem Awaits.lacks (h : d.Awaits (x :: xs) ps goal) (hgoal : goal.Writable) : d.Lacks x := by
  have hdue : d.given x.option ++ x :: xs.filter (·.option = x.option) = goal.given x.option := by
    have hall := h.given x.option
    rwa [List.filter_cons, if_pos (decide_eq_true rfl)] at hall
  have hlength := congrArg List.length hdue
  rw [List.length_append, List.length_cons] at hlength
  have hone : (goal.given x.option).length ≤ 1 → d.Lacks x := by
    intro hle
    exact .inl (List.length_eq_zero_iff.mp (by omega))
  cases x with
  | strategy s | maxInputBytes n | callLimit n | pretty b =>
      apply hone
      simp only [Setting.option, Draft.given, List.length_map]
      exact Option.length_toList_le
  | explain | listLanguages =>
      apply hone
      simp only [Setting.option, Draft.given, List.length_replicate]
      exact Bool.toNat_le _
  | verbose =>
      simp only [Setting.option, Draft.given, List.length_replicate] at hlength
      have hle := hgoal.verbose
      exact .inr ⟨rfl, by omega⟩

theorem Awaits.set (h : d.Awaits (x :: xs) ps goal) (hgoal : goal.Writable) : (d.set x).Awaits xs ps goal where
  given o := by
    have hall := h.given o
    rw [List.filter_cons] at hall
    by_cases ho : x.option = o
    · subst ho
      rw [if_pos (decide_eq_true rfl)] at hall
      rw [given_set_self (h.lacks hgoal), List.append_assoc]
      exact hall
    · rw [if_neg (by simpa using ho)] at hall
      rw [given_set_of_ne ho]
      exact hall
  positionals := by
    have hpos := h.positionals
    cases x <;> exact hpos
  languageFirst := by
    have hfirst := h.languageFirst
    cases x <;> exact hfirst

theorem Awaits.add {p : String} (h : d.Awaits xs (p :: ps) goal) (hgoal : goal.Writable) :
    ∃ d', d.addPositional p = .ok d' ∧ d'.Awaits xs ps goal := by
  have hpos := h.positionals
  cases hl : d.language with
  | none =>
      have hf := h.languageFirst hl
      refine ⟨{ d with language := some p }, by rw [addPositional, hl], h.given, ?_, fun h => by cases h⟩
      simpa [Draft.positionals, hl, hf] using hpos
  | some l =>
      cases hf : d.file with
      | none =>
          have hne : p.isEmpty = false := by
            have hfile := (positionals_get hgoal.languageFirst).2
            rw [← hpos, Draft.positionals, hl, hf] at hfile
            have hp : p ≠ "" := by
              rintro rfl
              exact hgoal.file hfile
            simpa [String.isEmpty_iff] using hp
          refine ⟨{ d with file := some p }, ?_, h.given, ?_, fun h => by rw [hl] at h; cases h⟩
          · simp [addPositional, hl, hf, hne]
          · simpa [Draft.positionals, hl, hf] using hpos
      | some f =>
          have hlength := congrArg List.length hpos
          have hle := goal.length_positionals_le
          simp [Draft.positionals, hl, hf] at hlength hle
          omega

/-- A draft is its settings and its positionals. -/
theorem eq_of_given (hgiven : ∀ o, d.given o = goal.given o) (hlanguage : d.language = goal.language)
    (hfile : d.file = goal.file) : d = goal := by
  have hvalue : ∀ {α : Type} {f : α → Setting} {old new : Option α}, (∀ a b, f a = f b → a = b) →
      old.toList.map f = new.toList.map f → old = new := by
    intro α f old new hf h
    cases old <;> cases new <;> simp at h ⊢
    exact hf _ _ h
  have hflag : ∀ {x : Setting} {old new : Bool},
      List.replicate old.toNat x = List.replicate new.toNat x → old = new := by
    intro x old new h
    cases old <;> cases new <;> simp at h ⊢
  have hstrategy := hvalue (by simp) (hgiven (.inl .strategy))
  have hmaxInputBytes := hvalue (by simp) (hgiven (.inl .maxInputBytes))
  have hcallLimit := hvalue (by simp) (hgiven (.inl .callLimit))
  have hpretty := hvalue (by simp) (hgiven (.inr .pretty))
  have hexplain := hflag (hgiven (.inr .explain))
  have hlistLanguages := hflag (hgiven (.inr .listLanguages))
  have hverbose : d.verbose = goal.verbose := by simpa [given] using hgiven (.inr .verbose)
  cases d
  cases goal
  simp_all

/-- Where nothing is due any more, the draft is there. -/
theorem Awaits.eq (h : d.Awaits [] [] goal) (hgoal : goal.Writable) : d = goal := by
  have hpos : d.positionals = goal.positionals := by simpa using h.positionals
  obtain ⟨hl, hf⟩ := positionals_get h.languageFirst
  obtain ⟨hgl, hgf⟩ := positionals_get hgoal.languageFirst
  refine eq_of_given (by simpa using h.given) ?_ ?_
  · rw [hl, hgl, hpos]
  · rw [hf, hgf, hpos]

end Draft

/-! ### Words -/

def optionName : Valued ⊕ Flag → String
  | .inl .strategy => "strategy"
  | .inl .maxInputBytes => "max-input-bytes"
  | .inl .callLimit => "call-limit"
  | .inr .pretty => "pretty"
  | .inr .explain => "explain"
  | .inr .verbose => "verbose"
  | .inr .listLanguages => "list-languages"
  | .inr .help => "help"
  | .inr .version => "version"

/-- How options are written. -/
inductive Spelling where
  /-- `--name`, and a value in the next word or behind an equals sign. -/
  | long (x : Setting) (joined : Bool)
  /-- `-v`, with any number of letters more. -/
  | letters (more : Nat)

namespace Spelling

/-- The words of a spelling. -/
def words : Spelling → List String
  | long x joined =>
    let name := "--" ++ optionName x.option
    match x.option, joined with
    | .inl _, true => [name ++ "=" ++ x.text]
    | .inl _, false => [name, x.text]
    | .inr _, _ => [name]
  | letters more => ["-" ++ String.ofList (List.replicate (more + 1) 'v')]

/-- What a spelling sets. -/
def settings : Spelling → List Setting
  | long x _ => [x]
  | letters more => List.replicate (more + 1) .verbose

end Spelling

/-- A word that is no option. -/
def IsPlain (a : String) : Prop := a = "-" ∨ a.toList.head? ≠ some '-'

theorem formOf_of_isPlain {a : String} (h : IsPlain a) : formOf a = .positional := by
  unfold formOf
  rcases h with rfl | h
  · rfl
  · split <;> simp_all

theorem longOption?_optionName (o : Valued ⊕ Flag) : longOption? (optionName o) = some o := by
  rcases o with (_ | _ | _) | (_ | _ | _ | _ | _ | _) <;> rfl

theorem cutAtEquals_append {name : List Char} (h : '=' ∉ name) (value : List Char) :
    cutAtEquals (name ++ '=' :: value) = (name, some value) := by
  induction name with
  | nil => rfl
  | cons c name ih =>
      rw [List.mem_cons, not_or] at h
      rw [List.cons_append, cutAtEquals, ih h.2]
      exact fun hc => h.1 hc.symm

theorem formOf_long (o : Valued ⊕ Flag) : formOf ("--" ++ optionName o) = .long (optionName o) none := by
  rcases o with (_ | _ | _) | (_ | _ | _ | _ | _ | _) <;> rfl

theorem formOf_joined (o : Valued ⊕ Flag) (value : String) :
    formOf ("--" ++ optionName o ++ "=" ++ value) = .long (optionName o) (some value) := by
  have hlist : ("--" ++ optionName o ++ "=" ++ value).toList =
      '-' :: '-' :: ((optionName o).toList ++ '=' :: value.toList) := by simp
  have hname : '=' ∉ (optionName o).toList := by
    rcases o with (_ | _ | _) | (_ | _ | _ | _ | _ | _) <;> decide
  rw [formOf, hlist]
  split
  next h => simp at h
  next cs _ h =>
    simp only [List.cons.injEq, true_and] at h
    rw [← h, cutAtEquals_append hname]
    simp
  next c cs _ hc h =>
    simp only [List.cons.injEq, true_and] at h
    exact absurd h.1.symm hc
  next h => simp at h

theorem formOf_letters (more : Nat) :
    formOf ("-" ++ String.ofList (List.replicate (more + 1) 'v')) = .letters (List.replicate (more + 1) 'v') := by
  have hlist : ("-" ++ String.ofList (List.replicate (more + 1) 'v')).toList =
      '-' :: 'v' :: List.replicate more 'v' := by simp [List.replicate_succ]
  rw [formOf, hlist, List.replicate_succ]
  rfl

theorem canBeValue_text {x : Setting} {option : Valued} (h : x.option = .inl option) :
    canBeValue x.text = true := by
  have hplain : IsPlain x.text := by
    right
    cases x with
    | strategy s => cases s <;> decide
    | maxInputBytes n | callLimit n =>
        obtain ⟨c, cs, hcs, hc⟩ := exists_toDigits_eq_cons n
        rw [Setting.text, toList_toString, hcs]
        intro heq
        cases heq
        cases hc
    | _ => cases h
  rw [canBeValue, formOf_of_isPlain hplain]

theorem readArguments_long (d : Draft) (x : Setting) (joined : Bool) (as : List String) :
    readArguments d ((Spelling.long x joined).words ++ as) = d.make x >>= fun d => readArguments d as := by
  have hname := longOption?_optionName x.option
  have hlong := formOf_long x.option
  have hjoined := formOf_joined x.option x.text
  cases ho : x.option with
  | inl option =>
      rw [ho] at hname hlong hjoined
      cases joined with
      | true => simp [Spelling.words, ho, readArguments, hjoined, hname, Draft.make]
      | false => simp [Spelling.words, ho, readArguments, hlong, hname, Draft.make, canBeValue_text ho]
  | inr flag =>
      rw [ho] at hname hlong
      simp [Spelling.words, ho, readArguments, hlong, hname, Draft.make]

namespace Draft

variable {d goal : Draft} {xs : List Setting} {ps : List String}

theorem Awaits.setLetters {n : Nat} (h : d.Awaits (List.replicate n .verbose ++ xs) ps goal) (hgoal : goal.Writable) :
    ∃ d', d.setLetters (List.replicate n 'v') = .ok d' ∧ d'.Awaits xs ps goal := by
  induction n generalizing d with
  | zero => exact ⟨d, rfl, h⟩
  | succ n ih =>
      obtain ⟨d', hd', hawaits⟩ := ih (h.set hgoal)
      refine ⟨d', ?_, hawaits⟩
      have hflag : d.setFlag .verbose false = .ok (d.set .verbose) := make_eq_set (h.lacks hgoal) trivial
      rw [List.replicate_succ, Draft.setLetters, hflag]
      exact hd'

/-- One spelling keeps the account. -/
theorem Awaits.spelling {u : Spelling} (h : d.Awaits (u.settings ++ xs) ps goal) (hgoal : goal.Writable)
    (hu : ∀ x ∈ u.settings, x.Allowed) (as : List String) :
    ∃ d', readArguments d (u.words ++ as) = readArguments d' as ∧ d'.Awaits xs ps goal := by
  cases u with
  | long x joined =>
      have hx : x.Allowed := hu x List.mem_cons_self
      refine ⟨d.set x, ?_, h.set hgoal⟩
      rw [readArguments_long, make_eq_set (h.lacks hgoal) hx]
      rfl
  | letters more =>
      obtain ⟨d', hd', hawaits⟩ := h.setLetters hgoal
      refine ⟨d', ?_, hawaits⟩
      rw [Spelling.words, List.singleton_append, readArguments, formOf_letters]
      simp only [hd']
      rfl

theorem Awaits.positional {p : String} (h : d.Awaits xs (p :: ps) goal) (hgoal : goal.Writable)
    (hp : IsPlain p) (as : List String) :
    ∃ d', readArguments d (p :: as) = readArguments d' as ∧ d'.Awaits xs ps goal := by
  obtain ⟨d', hd', hawaits⟩ := h.add hgoal
  refine ⟨d', ?_, hawaits⟩
  rw [readArguments, formOf_of_isPlain hp]
  simp only [hd']
  rfl

end Draft

/-! ### Command lines -/

/-- The words of an option or a positional. -/
def pieceWords : Spelling ⊕ String → List String
  | .inl u => u.words
  | .inr p => [p]

/-- What is spelled is read. -/
theorem Draft.Awaits.readArguments_eq {d goal : Draft} {pieces : List (Spelling ⊕ String)}
    (h : d.Awaits ((pieces.filterMap Sum.getLeft?).flatMap Spelling.settings)
      (pieces.filterMap Sum.getRight?) goal) (hgoal : goal.Writable)
    (hallowed : ∀ u ∈ pieces.filterMap Sum.getLeft?, ∀ x ∈ u.settings, x.Allowed)
    (hplain : ∀ p ∈ pieces.filterMap Sum.getRight?, IsPlain p) :
    readArguments d (pieces.flatMap pieceWords) = .ok goal := by
  induction pieces generalizing d with
  | nil => rw [h.eq hgoal]; rfl
  | cons piece pieces ih =>
      cases piece with
      | inl u =>
          obtain ⟨hu, hus⟩ := List.forall_mem_cons.mp hallowed
          obtain ⟨d', hd', hawaits⟩ := h.spelling hgoal hu (pieces.flatMap pieceWords)
          exact hd'.trans (ih hawaits hus hplain)
      | inr p =>
          obtain ⟨hp, hps⟩ := List.forall_mem_cons.mp hplain
          obtain ⟨d', hd', hawaits⟩ := h.positional hgoal hp (pieces.flatMap pieceWords)
          exact hd'.trans (ih hawaits hallowed hps)

namespace Arguments

/-- Arguments that can be given on a command line. -/
structure Writable (a : Arguments) : Prop where
  language : ∀ s ∈ a.language, IsPlain s
  file : ∀ s ∈ a.file, IsPlain s ∧ s ≠ ""
  maxInputBytes : ∀ n ∈ a.maxInputBytes, n ≤ maxValue
  callLimit : ∀ n ∈ a.callLimit, 0 < n ∧ n ≤ maxValue
  verbose : a.verbose ≤ maxVerbose
  /-- A language is needed, unless languages are listed. -/
  required : a.listLanguages = false → a.language ≠ none
  /-- No file is read where languages are listed. -/
  alone : a.listLanguages = true → a.file = none

/-- The draft of arguments; the default strategy can be left out. -/
def draft (a : Arguments) (explicit : Bool) : Draft where
  language := a.language
  file := a.file
  strategy := if explicit = true ∨ a.strategy ≠ .stream then some a.strategy else none
  pretty := if a.pretty then some true else none
  maxInputBytes := a.maxInputBytes
  callLimit := a.callLimit
  explain := a.explain
  verbose := a.verbose
  listLanguages := a.listLanguages

end Arguments

/-- No variable is set for an option that is left out. -/
structure Draft.Unaided (d : Draft) (env : Environment) : Prop where
  strategy : d.strategy = none → env strategyVariable = none
  pretty : d.pretty = none → env prettyVariable = none
  maxInputBytes : d.maxInputBytes = none → env maxInputBytesVariable = none
  callLimit : d.callLimit = none → env callLimitVariable = none

section Drafts

variable {a : Arguments} {explicit : Bool} {env : Environment}

/-- A variable is not read where its option is given, so it need not be right. -/
theorem valueOr_eq {α : Type} {given : Option α} {fallback : Option String} (h : given = none → fallback = none)
    (read : String → Option α) : valueOr given fallback read = .ok given := by
  cases given with
  | none => rw [h rfl]; rfl
  | some a => rfl

theorem Arguments.Writable.languageFirst (ha : a.Writable) (h : a.language = none) : a.file = none := by
  cases hlist : a.listLanguages with
  | false => exact absurd h (ha.required hlist)
  | true => exact ha.alone hlist

theorem Arguments.Writable.writable_draft (ha : a.Writable) : (a.draft explicit).Writable where
  verbose := ha.verbose
  file h := (ha.file "" h).2 rfl
  languageFirst := ha.languageFirst

theorem Arguments.Writable.allowed (ha : a.Writable) {x : Setting} (hx : x ∈ (a.draft explicit).settings) :
    x.Allowed := by
  have hgiven : x ∈ (a.draft explicit).given x.option := by
    rw [← Draft.filter_settings]
    exact List.mem_filter.mpr ⟨hx, decide_eq_true rfl⟩
  cases x with
  | maxInputBytes n => exact ha.maxInputBytes n (by simpa [Draft.given, Setting.option, draft] using hgiven)
  | callLimit n => exact ha.callLimit n (by simpa [Draft.given, Setting.option, draft] using hgiven)
  | pretty b =>
      cases b with
      | true => rfl
      | false => simp [Draft.given, Setting.option, draft] at hgiven
  | _ => trivial

theorem Arguments.Writable.isPlain (ha : a.Writable) {p : String} (hp : p ∈ (a.draft explicit).positionals) :
    IsPlain p := by
  rcases List.mem_append.mp hp with hp | hp
  · exact ha.language p (Option.mem_toList.mp hp)
  · exact (ha.file p (Option.mem_toList.mp hp)).1

theorem Draft.Unaided.finish_eq {d : Draft} (h : d.Unaided env)
    (hrequired : d.listLanguages = false → d.language ≠ none) (halone : d.listLanguages = true → d.file = none) :
    d.finish env = .ok
      { d with strategy := d.strategy.getD .stream, pretty := d.pretty.getD false } := by
  unfold Draft.finish
  rw [valueOr_eq h.strategy, valueOr_eq h.pretty, valueOr_eq h.maxInputBytes, valueOr_eq h.callLimit]
  cases hlist : d.listLanguages with
  | true =>
      have hfile : d.file.isSome = false := by rw [halone hlist]; rfl
      simp only [hfile]
      rfl
  | false =>
      have hlanguage : d.language.isNone = false := by
        simpa [Option.isSome_iff_ne_none] using hrequired hlist
      simp only [hlanguage]
      rfl

theorem Arguments.Writable.finish_draft (ha : a.Writable) (henv : (a.draft explicit).Unaided env) :
    (a.draft explicit).finish env = .ok a := by
  have hstrategy : ((a.draft explicit).strategy).getD .stream = a.strategy := by
    by_cases hs : explicit = true ∨ a.strategy ≠ .stream
    · rw [draft, if_pos hs, Option.getD_some]
    · rw [draft, if_neg hs, Option.getD_none]
      exact (Decidable.not_not.mp (not_or.mp hs).2).symm
  have hpretty : ((a.draft explicit).pretty).getD false = a.pretty := by
    cases hp : a.pretty <;> simp [draft, hp]
  rw [henv.finish_eq ha.required ha.alone, hstrategy, hpretty]
  rfl

end Drafts

/-- **Command lines in any order.**  Arguments are read back from every command line that spells them: options in
either spelling, detail as any clusters of letters, all in any order and interleaved with the positionals in
their order.  Variables of options that are given may hold anything. -/
theorem parseArguments_of_spelled {a : Arguments} (ha : a.Writable) (explicit : Bool)
    (pieces : List (Spelling ⊕ String))
    (hsettings : ((pieces.filterMap Sum.getLeft?).flatMap Spelling.settings).Perm (a.draft explicit).settings)
    (hpositionals : pieces.filterMap Sum.getRight? = (a.draft explicit).positionals)
    {env : Environment} (henv : (a.draft explicit).Unaided env) :
    parseArguments (pieces.flatMap pieceWords) env = .ok a := by
  have hawaits : Draft.Awaits {} ((pieces.filterMap Sum.getLeft?).flatMap Spelling.settings)
      (pieces.filterMap Sum.getRight?) (a.draft explicit) := by
    refine ⟨fun o => ?_, hpositionals, fun _ => rfl⟩
    have hnil : Draft.given {} o = [] := by rcases o with (_ | _ | _) | (_ | _ | _ | _ | _ | _) <;> rfl
    rw [hnil, List.nil_append, Draft.filter_eq_of_perm hsettings]
  have hread := hawaits.readArguments_eq ha.writable_draft
    (fun u hu x hx => ha.allowed (hsettings.mem_iff.mp (List.mem_flatMap_of_mem hu hx)))
    (fun p hp => ha.isPlain (hpositionals ▸ hp))
  rw [parseArguments, hread]
  exact ha.finish_draft henv

/-- Variables that no option could have go unnoticed. -/
theorem parseArguments_of_spelled_stray :
    parseArguments ["-vvv", "-", "--call-limit=1", "--explain", "a=b.tf", "--verbose", "--max-input-bytes",
        "18446744073709551615", "--pretty"]
      (fun name => if name = prettyVariable then some "maybe" else
        if name = callLimitVariable then some "0" else none) =
      .ok { language := some "-", file := some "a=b.tf", pretty := true, callLimit := some 1, explain := true,
            maxInputBytes := some 18446744073709551615, verbose := 4 } := by
  refine parseArguments_of_spelled ?_ false
    [.inl (.letters 2), .inr "-", .inl (.long (.callLimit 1) true), .inl (.long .explain false),
      .inr "a=b.tf", .inl (.long .verbose false), .inl (.long (.maxInputBytes 18446744073709551615) false),
      .inl (.long (.pretty true) false)] (by decide) rfl ?_
  · refine ⟨?_, ?_, ?_, ?_, by decide, by decide, by decide⟩
    · rintro s ⟨⟩
      exact .inl rfl
    · rintro s ⟨⟩
      exact ⟨.inr (by decide), by decide⟩
    · rintro n ⟨⟩
      decide
    · rintro n ⟨⟩
      decide
  · refine ⟨fun _ => ?_, fun h => ?_, fun h => ?_, fun h => ?_⟩
    · rfl
    · cases h
    · cases h
    · cases h

end ConcreteSyntax.Command
