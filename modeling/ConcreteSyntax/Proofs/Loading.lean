import ConcreteSyntax.Extraction
import ConcreteSyntax.Proofs.Text.Utf8

/-! # What loading gives

`ReadEvent.given events` is what a reader has to give, however its answers are cut: all bytes before it ends
or fails, and the failure, if it does.

* **Reading** (`readToEnd_none`, `readToEnd_some`).  Reading to the end finds just that; reading up to a number
  of bytes finds the first of them, and a failure only if it comes earlier.
* **Loading** (`load_eq`).  So a source is loaded as if its size were checked first, then the reader asked
  whether it failed, and all bytes decoded last.
* **Inputs** (`Inputs.load_eq_ok_iff`).  A text is loaded exactly if the input holds its UTF-8 form, and no
  more bytes than the limit allows, neither on record nor in fact.
* **Readers that deliver** (`ReadEvent.Delivers`).  A reader delivers some bytes in any chunks, with any
  interruptions, and may fail once it has given a number of them.  What is loaded depends on the bytes, the
  failure and the limit only (`loads_of_delivers`, `load_congr`).
* **Files** (`loadFile_of_lt`, `loadFile_of_le`).  A size on record beyond the limit ends the matter; within the
  limit it decides nothing, and the file is loaded as any reader (`loadFile_of_delivers`). -/

namespace ConcreteSyntax

open Document (utf8)

/-! ### Reading -/

/-- The bytes that a reader gives before it ends or fails, and its failure. -/
def ReadEvent.given : List ReadEvent → List UInt8 × Option String
  | [] | .bytes [] :: _ => ([], none)
  | .bytes (b :: bs) :: events => (b :: bs ++ (given events).1, (given events).2)
  | .interrupted :: events => given events
  | .failed cause :: _ => ([], some cause)

open ReadEvent (given)

theorem readToEnd_none (events : List ReadEvent) (acc : List UInt8) :
    readToEnd events none acc =
      (given events).2.elim (.ok (acc.reverse ++ (given events).1)) .error := by
  fun_induction given events generalizing acc with
  | case1 => simp [readToEnd]
  | case2 events => simp [readToEnd]
  | case3 b bs events ih => simp [readToEnd, ih]
  | case4 events ih => simp [readToEnd, ih]
  | case5 cause events => simp [readToEnd]

theorem readToEnd_some (events : List ReadEvent) (n : Nat) (acc : List UInt8) :
    readToEnd events (some n) acc =
      if n ≤ (given events).1.length then .ok (acc.reverse ++ (given events).1.take n)
      else (given events).2.elim (.ok (acc.reverse ++ (given events).1)) .error := by
  -- with nothing left to read no answer is looked at
  have hzero : ∀ events acc, readToEnd events (some 0) acc = .ok acc.reverse := by
    intro events acc
    cases events <;> simp [readToEnd]
  cases n with
  | zero => simp [hzero]
  | succ n =>
      fun_induction given events generalizing n acc with
      | case1 => simp [readToEnd]
      | case2 events => simp [readToEnd]
      | case3 b bs events ih =>
          have hstep : readToEnd (.bytes (b :: bs) :: events) (some (n + 1)) acc =
              readToEnd events (some (n - bs.length)) (((b :: bs).take (n + 1)).reverse ++ acc) := by
            simp [readToEnd]
          rw [hstep, List.length_append, List.length_cons]
          rcases Nat.lt_or_ge bs.length n with hlt | hge
          · obtain ⟨k, hk⟩ : ∃ k, n - bs.length = k + 1 := ⟨n - bs.length - 1, by omega⟩
            have hall : (b :: bs).take (n + 1) = b :: bs :=
              List.take_of_length_le (by rw [List.length_cons]; omega)
            have hmore : (b :: bs ++ (given events).1).take (n + 1) =
                b :: bs ++ (given events).1.take (k + 1) := by
              rw [List.take_append, hall, List.length_cons, show n + 1 - (bs.length + 1) = k + 1 by omega]
            have hiff : k + 1 ≤ (given events).1.length ↔
                n + 1 ≤ bs.length + 1 + (given events).1.length := by omega
            rw [hk, ih, hall, hmore]
            simp [hiff]
          · rw [show n - bs.length = 0 by omega, hzero, if_pos (by omega),
              List.take_append_of_le_length (by rw [List.length_cons]; omega)]
            simp
      | case4 events ih =>
          have hstep : readToEnd (.interrupted :: events) (some (n + 1)) acc =
              readToEnd events (some (n + 1)) acc := by simp [readToEnd]
          rw [hstep]
          exact ih acc n
      | case5 cause events => simp [readToEnd]

/-! ### Loading -/

/-- **Loading.**  A reader is loaded as if all bytes it has to give were there: its size is checked, then
whether it failed, then what it gave is decoded.  Chunks and the expected size make no difference.  Under
a limit beyond what can be counted the reader has to have fewer bytes. -/
theorem load_eq {events : List ReadEvent} (origin : String) {limit : Option Nat} {sizeHint : Nat}
    (hhint : limit.elim sizeHint (min sizeHint) ≤ reservable)
    (hsize : ∀ max, limit = some max → countable ≤ max → (given events).1.length < countable) :
    load events origin limit sizeHint =
      (checkLimit (given events).1.length limit).bind fun _ =>
        (given events).2.elim
          ((Text.Utf8.decode (given events).1).mapError (Failure.undecodable origin))
          fun cause => .error (.unreadable origin cause) := by
  unfold load
  rw [if_neg (by omega)]
  cases limit with
  | none =>
      rw [Option.map_none, readToEnd_none]
      cases (given events).2 <;> rfl
  | some max =>
      have hsize := hsize max rfl
      rw [Option.map_some, readToEnd_some]
      by_cases hlong : max < (given events).1.length
      · -- one byte beyond the limit was read, whatever comes after it
        have hread : min (max + 1) countable ≤ (given events).1.length := by omega
        have hlength : ((given events).1.take (min (max + 1) countable)).length = max + 1 := by
          rw [List.length_take]
          omega
        rw [if_pos hread]
        change (checkLimit ((given events).1.take (min (max + 1) countable)).length (some max)).bind _ = _
        rw [hlength, checkLimit, checkLimit, if_pos (Nat.lt_succ_self max), if_pos hlong]
        rfl
      · have hread : ¬ min (max + 1) countable ≤ (given events).1.length := by omega
        rw [if_neg hread]
        cases (given events).2 with
        | none => rfl
        | some cause =>
            rw [checkLimit, if_neg hlong]
            rfl

/-! ### Inputs -/

/-- What reading an input gives. -/
def Inputs.reader (w : Inputs) : Input → List ReadEvent
  | .stdin => w.stdin
  | .file path =>
    match w.openFile path with
    | .regular _ reader => reader
    | _ => []

/-- The size on record of an input; nothing is on record about standard input. -/
def Inputs.recorded (w : Inputs) : Input → Nat
  | .stdin => 0
  | .file path =>
    match w.openFile path with
    | .regular size _ => size
    | _ => 0

/-- The bytes of an input: what standard input gives, if it does not fail, or what the reader of a file gives, if
what is on record about it fits into memory. -/
def Inputs.Holds (w : Inputs) (input : Input) (data : List UInt8) : Prop :=
  match input with
  | .stdin => given w.stdin = (data, none)
  | .file path => ∃ size reader, w.openFile path = .regular size reader ∧ size ≤ reservable ∧
      given reader = (data, none)

/-- An input has fewer bytes than can be counted, or no more than are on record. -/
def Inputs.Counted (w : Inputs) (input : Input) : Prop :=
  (given (w.reader input)).1.length < countable ∨ (given (w.reader input)).1.length ≤ w.recorded input

theorem checkLimit_eq_ok_iff {size : Nat} {limit : Option Nat} :
    checkLimit size limit = .ok () ↔ ∀ max, limit = some max → size ≤ max := by
  unfold checkLimit
  cases limit with
  | none => simp
  | some max =>
      simp only [Option.some.injEq]
      split
      next h =>
        constructor
        · intro he
          cases he
        · intro hle
          have := hle max rfl
          omega
      next h =>
        refine ⟨fun _ m hm => ?_, fun _ => rfl⟩
        omega

theorem checkLimit_bind_eq_ok_iff {α : Type} {size : Nat} {limit : Option Nat}
    {x : Except Failure α} {a : α} :
    ((checkLimit size limit).bind fun _ => x) = .ok a ↔
      (∀ max, limit = some max → size ≤ max) ∧ x = .ok a := by
  rw [← checkLimit_eq_ok_iff]
  cases checkLimit size limit with
  | error f => exact ⟨fun h => (by cases h), fun h => (by cases h.1)⟩
  | ok u => exact ⟨fun h => ⟨rfl, h⟩, fun h => h.2⟩

theorem load_eq_ok_iff {events : List ReadEvent} (origin : String) {limit : Option Nat}
    {sizeHint : Nat} (hhint : limit.elim sizeHint (min sizeHint) ≤ reservable)
    (hsize : (given events).1.length < countable) (source : String) :
    load events origin limit sizeHint = .ok source ↔
      given events = (utf8 source.toList, none) ∧
        ∀ max, limit = some max → (utf8 source.toList).length ≤ max := by
  rw [load_eq origin hhint fun _ _ _ => hsize, checkLimit_bind_eq_ok_iff]
  obtain ⟨data, failure⟩ := given events
  rw [Prod.mk.injEq]
  cases failure with
  | some cause => exact ⟨fun h => (by cases h.2), fun h => (by cases h.1.2)⟩
  | none =>
      have hdecode : (Text.Utf8.decode data).mapError (Failure.undecodable origin) = .ok source ↔
          data = utf8 source.toList := by
        rw [← Text.Utf8.decode_eq_ok_iff]
        cases Text.Utf8.decode data with
        | error fault => exact ⟨fun h => (by cases h), fun h => (by cases h)⟩
        | ok s =>
            change Except.ok s = Except.ok source ↔ _
            rw [Except.ok.injEq, Except.ok.injEq]
      constructor
      · rintro ⟨hlimit, h⟩
        obtain rfl := hdecode.mp h
        exact ⟨⟨rfl, rfl⟩, hlimit⟩
      · rintro ⟨⟨rfl, _⟩, hlimit⟩
        exact ⟨hlimit, hdecode.mpr rfl⟩

theorem loadFile_regular (size : Nat) (reader : List ReadEvent) (origin : String) (limit : Option Nat) :
    loadFile (.regular size reader) origin limit =
      (checkLimit size limit).bind fun _ => load reader origin limit size := rfl

/-- A file is loaded exactly if its reader is, the size on record is within the limit and it fits into memory. -/
theorem loadFile_eq_ok_iff {size : Nat} {reader : List ReadEvent} (origin : String) (limit : Option Nat)
    (hcounted : (given reader).1.length < countable ∨ (given reader).1.length ≤ size) (source : String) :
    loadFile (.regular size reader) origin limit = .ok source ↔
      (size ≤ reservable ∧ given reader = (utf8 source.toList, none)) ∧
        ∀ max, limit = some max → size ≤ max ∧ (utf8 source.toList).length ≤ max := by
  rw [loadFile_regular, checkLimit_bind_eq_ok_iff]
  rcases Nat.lt_or_ge reservable size with hlarge | hfits
  · -- a file that does not fit is refused before it is read
    constructor
    · rintro ⟨hlimit, h⟩
      have hhint : reservable < limit.elim size (min size) := by
        cases limit with
        | none => exact hlarge
        | some max => exact Nat.lt_min.mpr ⟨hlarge, Nat.lt_of_lt_of_le hlarge (hlimit max rfl)⟩
      rw [load, if_pos hhint] at h
      cases h
    · rintro ⟨⟨hfits, _⟩, _⟩
      omega
  · have hsize : (given reader).1.length < countable := by
      rcases hcounted with hlt | hle
      · exact hlt
      · exact Nat.lt_of_le_of_lt (Nat.le_trans hle hfits) (by decide)
    have hhint : limit.elim size (min size) ≤ reservable := by
      cases limit with
      | none => exact hfits
      | some max => exact Nat.le_trans (Nat.min_le_left ..) hfits
    rw [load_eq_ok_iff origin hhint hsize source]
    constructor
    · rintro ⟨hrecord, hgiven, hlimit⟩
      exact ⟨⟨hfits, hgiven⟩, fun max hmax => ⟨hrecord max hmax, hlimit max hmax⟩⟩
    · rintro ⟨⟨_, hgiven⟩, hlimit⟩
      exact ⟨fun max hmax => (hlimit max hmax).1, hgiven, fun max hmax => (hlimit max hmax).2⟩

/-- **Inputs.**  A text is loaded exactly if the input holds its UTF-8 form, and neither this nor the size on record is
beyond the limit.  An input is taken to give fewer bytes than can be counted, unless as many are on record. -/
theorem Inputs.load_eq_ok_iff {w : Inputs} {input : Input} (hcounted : w.Counted input) (limit : Option Nat)
    (source : String) :
    w.load input limit = .ok source ↔
      w.Holds input (utf8 source.toList) ∧
        ∀ max, limit = some max → w.recorded input ≤ max ∧ (utf8 source.toList).length ≤ max := by
  cases input with
  | stdin =>
      have hsize : (given w.stdin).1.length < countable := by
        rcases hcounted with hlt | hle
        · exact hlt
        · exact Nat.lt_of_le_of_lt hle (show 0 < countable by decide)
      have hhint : limit.elim 0 (min 0) ≤ reservable := by
        cases limit <;> simp [reservable]
      have hload := ConcreteSyntax.load_eq_ok_iff Input.stdin.origin hhint hsize source
      refine hload.trans (and_congr_right fun _ => ?_)
      exact forall_congr' fun max => imp_congr_right fun _ => (and_iff_right (Nat.zero_le max)).symm
  | file path =>
      rw [Inputs.load, Inputs.Holds]
      rw [Inputs.Counted, Inputs.reader, Inputs.recorded] at hcounted
      rw [Inputs.recorded]
      cases hfile : w.openFile path with
      | refused cause | directory =>
          constructor
          · intro h
            cases h
          · rintro ⟨⟨_, _, h, _⟩, _⟩
            cases h
      | regular size reader =>
          rw [hfile] at hcounted
          rw [loadFile_eq_ok_iff _ limit hcounted source]
          refine and_congr_left fun _ => ?_
          constructor
          · rintro ⟨hfits, hgiven⟩
            exact ⟨size, reader, rfl, hfits, hgiven⟩
          · rintro ⟨_, _, hsame, hfits, hgiven⟩
            cases hsame
            exact ⟨hfits, hgiven⟩

/-! ### Readers that deliver -/

/-- The answers deliver some bytes in chunks, with interruptions anywhere between them.  They end after the
last byte, or fail with a cause once a number of bytes was given. -/
inductive ReadEvent.Delivers : List ReadEvent → List UInt8 → Option (Nat × String) → Prop
  | done : Delivers [] [] none
  | finished {events} : Delivers (.bytes [] :: events) [] none
  | chunk {chunk events data fault} : chunk ≠ [] → Delivers events data fault →
      Delivers (.bytes chunk :: events) (chunk ++ data)
        (fault.map fun x => (chunk.length + x.1, x.2))
  | interrupted {events data fault} : Delivers events data fault →
      Delivers (.interrupted :: events) data fault
  | failed {cause events data} : Delivers (.failed cause :: events) data (some (0, cause))

theorem ReadEvent.Delivers.given_of_none {events : List ReadEvent} {data : List UInt8}
    {fault : Option (Nat × String)} (h : Delivers events data fault) (hf : fault = none) :
    given events = (data, none) := by
  induction h with
  | done => rfl
  | finished => rw [given]
  | @chunk chunk events data fault hne _ ih =>
      cases chunk with
      | nil => exact absurd rfl hne
      | cons b bs => rw [given, ih (Option.map_eq_none_iff.mp hf)]
  | interrupted _ ih => rw [given, ih hf]
  | failed => cases hf

theorem ReadEvent.Delivers.given_of_some {events : List ReadEvent} {data : List UInt8}
    {fault : Option (Nat × String)} (h : Delivers events data fault) {f : Nat} {cause : String}
    (hf : fault = some (f, cause)) : f ≤ data.length ∧ given events = (data.take f, some cause) := by
  induction h generalizing f with
  | done => cases hf
  | finished => cases hf
  | @chunk chunk events data fault hne _ ih =>
      obtain ⟨⟨k, _⟩, rfl, hk⟩ := Option.map_eq_some_iff.mp hf
      cases hk
      obtain ⟨hle, hgiven⟩ := ih rfl
      refine ⟨by rw [List.length_append]; omega, ?_⟩
      cases chunk with
      | nil => exact absurd rfl hne
      | cons b bs => rw [given, hgiven, List.take_length_add_append]
  | interrupted _ ih =>
      obtain ⟨hle, hgiven⟩ := ih hf
      exact ⟨hle, by rw [given, hgiven]⟩
  | failed =>
      cases hf
      exact ⟨Nat.zero_le _, by rw [given, List.take_zero]⟩

theorem ReadEvent.Delivers.given_eq {events events' : List ReadEvent} {data : List UInt8}
    {fault : Option (Nat × String)} (h : Delivers events data fault) (h' : Delivers events' data fault) :
    given events = given events' := by
  cases fault with
  | none => rw [h.given_of_none rfl, h'.given_of_none rfl]
  | some x => rw [(h.given_of_some rfl).2, (h'.given_of_some rfl).2]

theorem ReadEvent.Delivers.length_given_le {events : List ReadEvent} {data : List UInt8}
    {fault : Option (Nat × String)} (h : Delivers events data fault) :
    (given events).1.length ≤ data.length := by
  cases fault with
  | none =>
      have hgiven := h.given_of_none rfl
      exact Nat.le_of_eq (congrArg (fun x => x.1.length) hgiven)
  | some x =>
      rw [(h.given_of_some rfl).2]
      exact List.length_take_le' ..

theorem ReadEvent.Delivers.lt_length_given_iff {events : List ReadEvent} {data : List UInt8}
    {fault : Option (Nat × String)} (h : Delivers events data fault) {max : Nat} :
    max < (given events).1.length ↔ max < data.length ∧ ∀ f cause, fault = some (f, cause) → max < f := by
  cases fault with
  | none =>
      rw [h.given_of_none rfl]
      exact (and_iff_left fun f cause hf => by cases hf).symm
  | some x =>
      obtain ⟨hle, hgiven⟩ := h.given_of_some rfl
      rw [hgiven, List.length_take, Nat.min_eq_left hle]
      constructor
      · intro hlt
        refine ⟨Nat.lt_of_lt_of_le hlt hle, fun f cause hf => ?_⟩
        cases hf
        exact hlt
      · rintro ⟨_, hfault⟩
        exact hfault x.1 x.2 rfl

theorem ReadEvent.delivers_chunked (size : Nat) {fuel : Nat} {bytes : List UInt8} (h : bytes.length ≤ fuel) :
    Delivers (chunked size fuel bytes) bytes none := by
  induction fuel generalizing bytes with
  | zero =>
      obtain rfl : bytes = [] := List.eq_nil_of_length_eq_zero (by omega)
      exact .done
  | succ fuel ih =>
      cases bytes with
      | nil => exact .done
      | cons b bs =>
          have hrest : (bs.drop (size - 1)).length ≤ fuel := by
            rw [List.length_cons] at h
            rw [List.length_drop]
            omega
          have hchunk : Delivers (chunked size (fuel + 1) (b :: bs)) (b :: bs.take (size - 1) ++ bs.drop (size - 1))
              none := .chunk (List.cons_ne_nil _ _) (ih hrest)
          rw [List.cons_append, List.take_append_drop] at hchunk
          exact hchunk

/-- How loading ends: with the failure of the reader unless it lies beyond the limit, else at a size beyond
the limit, else with what the bytes decode to, if they do. -/
structure Loads (origin : String) (limit : Option Nat) (data : List UInt8)
    (fault : Option (Nat × String)) (result : Except Failure String) : Prop where
  unreadable : ∀ f cause, fault = some (f, cause) → (∀ max, limit = some max → f ≤ max) →
    result = .error (.unreadable origin cause)
  exhausted : ∀ max, limit = some max → (∀ f cause, fault = some (f, cause) → max < f) →
    max < data.length →
    result = .error (.exhausted .loading s!"input is larger than the {max} byte limit")
  undecodable : fault = none → (∀ max, limit = some max → data.length ≤ max) →
    (∀ text : String, utf8 text.toList ≠ data) → ∃ why, result = .error (.undecodable origin why)
  decoded : fault = none → (∀ max, limit = some max → data.length ≤ max) →
    ∀ text : String, utf8 text.toList = data → result = .ok text

theorem checkLimit_of_le {size : Nat} {limit : Option Nat} (h : ∀ max, limit = some max → size ≤ max) :
    checkLimit size limit = .ok () := checkLimit_eq_ok_iff.mpr h

theorem checkLimit_of_lt {size max : Nat} (h : max < size) : checkLimit size (some max) =
    .error (.exhausted .loading s!"input is larger than the {max} byte limit") := by
  rw [checkLimit, if_pos h]

theorem loads_of_delivers {events : List ReadEvent} {data : List UInt8} {fault : Option (Nat × String)}
    (h : ReadEvent.Delivers events data fault) (origin : String) {limit : Option Nat} {sizeHint : Nat}
    (hhint : limit.elim sizeHint (min sizeHint) ≤ reservable)
    (hsize : ∀ max, limit = some max → countable ≤ max → data.length < countable) :
    Loads origin limit data fault (load events origin limit sizeHint) := by
  have hload := load_eq origin hhint fun max hmax hle =>
    Nat.lt_of_le_of_lt h.length_given_le (hsize max hmax hle)
  constructor
  · intro f cause hf hlimit
    obtain ⟨hle, hgiven⟩ := h.given_of_some hf
    rw [hload, hgiven, checkLimit_of_le fun max hmax => by
      rw [List.length_take, Nat.min_eq_left hle]
      exact hlimit max hmax]
    rfl
  · intro max hmax hf hlong
    subst hmax
    rw [hload, checkLimit_of_lt (h.lt_length_given_iff.mpr ⟨hlong, hf⟩)]
    rfl
  · intro hf hlimit hno
    rw [h.given_of_none hf, checkLimit_of_le hlimit] at hload
    cases hd : Text.Utf8.decode data with
    | error why => exact ⟨why, hload.trans (congrArg (Except.mapError (Failure.undecodable origin)) hd)⟩
    | ok text => exact absurd (Text.Utf8.decode_eq_ok_iff.mp hd).symm (hno text)
  · intro hf hlimit text htext
    have hd := Text.Utf8.decode_eq_ok_iff.mpr htext.symm
    rw [h.given_of_none hf, checkLimit_of_le hlimit] at hload
    exact hload.trans (congrArg (Except.mapError (Failure.undecodable origin)) hd)

/-- Readers that give the same are loaded alike, whatever sizes are expected. -/
theorem load_congr {events events' : List ReadEvent} (hgiven : given events' = given events)
    (origin : String) {limit : Option Nat} {sizeHint sizeHint' : Nat}
    (hhint : limit.elim sizeHint (min sizeHint) ≤ reservable)
    (hhint' : limit.elim sizeHint' (min sizeHint') ≤ reservable)
    (hsize : ∀ max, limit = some max → countable ≤ max → (given events).1.length < countable) :
    load events' origin limit sizeHint' = load events origin limit sizeHint := by
  have hsize' : ∀ max, limit = some max → countable ≤ max → (given events').1.length < countable := by
    rw [hgiven]
    exact hsize
  rw [load_eq origin hhint hsize, load_eq origin hhint' hsize', hgiven]

theorem loadFile_of_lt {size max : Nat} (h : max < size) (reader : List ReadEvent) (origin : String) :
    loadFile (.regular size reader) origin (some max) =
      .error (.exhausted .loading s!"input is larger than the {max} byte limit") := by
  rw [loadFile_regular, checkLimit_of_lt h]
  rfl

/-- A file whose size on record is within the limit is loaded as any reader, whatever that size is. -/
theorem loadFile_of_le {size : Nat} {limit : Option Nat} (h : ∀ max, limit = some max → size ≤ max)
    (reader : List ReadEvent) (origin : String) :
    loadFile (.regular size reader) origin limit = load reader origin limit size := by
  rw [loadFile_regular, checkLimit_of_le h]
  rfl

/-- A file whose reader delivers the same is loaded as that reader, unless only the size on record is beyond the
limit. -/
theorem loadFile_of_delivers {events reader : List ReadEvent} {data : List UInt8} {fault : Option (Nat × String)}
    (h : ReadEvent.Delivers events data fault) (hreader : ReadEvent.Delivers reader data fault) (origin : String)
    {limit : Option Nat} {sizeHint size : Nat} (hhint : limit.elim sizeHint (min sizeHint) ≤ reservable)
    (hsize : ∀ max, limit = some max → countable ≤ max → data.length < countable)
    (hfits : limit.elim size (min size) ≤ reservable)
    (hexcess : ∀ max, limit = some max → max < size → max < (given reader).1.length) :
    loadFile (.regular size reader) origin limit = load events origin limit sizeHint := by
  by_cases hrecord : ∃ max, limit = some max ∧ max < size
  · -- the record is beyond the limit, and reading would have found as much
    obtain ⟨max, rfl, hlt⟩ := hrecord
    obtain ⟨hlong, hfault⟩ := hreader.lt_length_given_iff.mp (hexcess max rfl hlt)
    rw [loadFile_of_lt hlt, (loads_of_delivers h origin hhint hsize).exhausted max rfl hfault hlong]
  · -- the record is within the limit, and reading decides
    have hwithin : ∀ max, limit = some max → size ≤ max := by
      intro max hmax
      exact Nat.le_of_not_lt fun hlt => hrecord ⟨max, hmax, hlt⟩
    rw [loadFile_of_le hwithin]
    refine load_congr (hreader.given_eq h) origin hhint hfits fun max hmax hle => ?_
    exact Nat.lt_of_le_of_lt h.length_given_le (hsize max hmax hle)

/-- **The law of loading.**  What is loaded from a reader is decided by the bytes it delivers, the point where it fails
and the limit: neither the chunks nor the interruptions nor the expected size matter.  A file is loaded as any reader
that delivers the same, whatever its size on record, unless only that size is beyond the limit: so an excess is found
alike on record and by reading.  In particular a file that just holds its bytes is loaded as a reader of them. -/
theorem load_of_delivers (events : List ReadEvent) (data : List UInt8) (fault : Option (Nat × String))
    (h : ReadEvent.Delivers events data fault) (origin : String) (limit : Option Nat) (sizeHint : Nat)
    (hhint : limit.elim sizeHint (min sizeHint) ≤ reservable)
    (hsize : ∀ max, limit = some max → countable ≤ max → data.length < countable) :
    Loads origin limit data fault (load events origin limit sizeHint) ∧
    (∀ events' sizeHint', ReadEvent.Delivers events' data fault →
      limit.elim sizeHint' (min sizeHint') ≤ reservable →
      load events' origin limit sizeHint' = load events origin limit sizeHint) ∧
    (∀ size reader, ReadEvent.Delivers reader data fault → limit.elim size (min size) ≤ reservable →
      (∀ max, limit = some max → max < size → max < (given reader).1.length) →
      loadFile (.regular size reader) origin limit = load events origin limit sizeHint) ∧
    (∀ size reader max, limit = some max → max < size →
      loadFile (.regular size reader) origin limit =
        .error (.exhausted .loading s!"input is larger than the {max} byte limit")) ∧
    (fault = none → limit.elim data.length (min data.length) ≤ reservable →
      loadFile (.ofBytes data) origin limit = load events origin limit sizeHint) := by
  refine ⟨loads_of_delivers h origin hhint hsize, ?_, ?_, ?_, ?_⟩
  · intro events' sizeHint' h' hhint'
    refine load_congr (h'.given_eq h) origin hhint hhint' fun max hmax hle => ?_
    exact Nat.lt_of_le_of_lt h.length_given_le (hsize max hmax hle)
  · intro size reader hreader hfits hexcess
    exact loadFile_of_delivers h hreader origin hhint hsize hfits hexcess
  · rintro size reader max rfl hlt
    exact loadFile_of_lt hlt reader origin
  · rintro rfl hfits
    have hdata : ReadEvent.Delivers (ReadEvent.ofBytes data.length data) data none :=
      ReadEvent.delivers_chunked data.length (Nat.le_refl _)
    refine loadFile_of_delivers h hdata origin hhint hsize hfits fun max _ hlt => ?_
    rw [hdata.given_of_none rfl]
    exact hlt

/-- A reader that gives three bytes in two parts and fails before the fourth. -/
def ReadEvent.cut : List ReadEvent :=
  [.bytes [0x61, 0xc3], .interrupted, .bytes [0xa9], .failed "broken pipe"]

/-- Under a limit of two bytes its excess is found, also in a file that has one byte on record; under a limit of
three it fails. -/
theorem load_of_delivers_cut :
    ReadEvent.Delivers ReadEvent.cut [0x61, 0xc3, 0xa9, 0x62] (some (3, "broken pipe")) ∧
    load ReadEvent.cut "grown" (some 2) 9 = .error (.exhausted .loading "input is larger than the 2 byte limit") ∧
    loadFile (.regular 1 ReadEvent.cut) "grown" (some 2) =
      .error (.exhausted .loading "input is larger than the 2 byte limit") ∧
    loadFile (.regular 3 ReadEvent.cut) "grown" (some 2) =
      .error (.exhausted .loading "input is larger than the 2 byte limit") ∧
    loadFile (.regular 1 ReadEvent.cut) "grown" (some 3) = .error (.unreadable "grown" "broken pipe") := by
  have h : ReadEvent.Delivers ReadEvent.cut [0x61, 0xc3, 0xa9, 0x62] (some (3, "broken pipe")) :=
    .chunk (List.cons_ne_nil _ _) (.interrupted (.chunk (List.cons_ne_nil _ _) .failed))
  have hhint : ∀ max size, max < 4 → (some max).elim size (min size) ≤ reservable := by
    intro max size hmax
    simp only [Option.elim_some, reservable]
    omega
  have hlaw : ∀ max, max < 4 → Loads "grown" (some max) [0x61, 0xc3, 0xa9, 0x62] (some (3, "broken pipe"))
        (load ReadEvent.cut "grown" (some max) 9) ∧
      ∀ size, (max < size → max < 3) →
        loadFile (.regular size ReadEvent.cut) "grown" (some max) = load ReadEvent.cut "grown" (some max) 9 := by
    intro max hmax
    have hcountable : ∀ m, some max = some m → countable ≤ m → 4 < countable := by
      intro m _ _
      decide
    obtain ⟨hloads, _, hfile, _⟩ :=
      load_of_delivers _ _ _ h "grown" (some max) 9 (hhint max 9 hmax) hcountable
    refine ⟨hloads, fun size hsize => hfile size _ h (hhint max size hmax) ?_⟩
    rintro m hm hlt
    cases hm
    exact hsize hlt
  obtain ⟨htwo, hfiles⟩ := hlaw 2 (by decide)
  obtain ⟨hthree, hfiles'⟩ := hlaw 3 (by decide)
  have hexcess : load ReadEvent.cut "grown" (some 2) 9 =
      .error (.exhausted .loading "input is larger than the 2 byte limit") := by
    refine htwo.exhausted 2 rfl ?_ (by decide)
    intro f cause hf
    cases hf
    decide
  have hfails : load ReadEvent.cut "grown" (some 3) 9 = .error (.unreadable "grown" "broken pipe") := by
    refine hthree.unreadable 3 _ rfl ?_
    intro max hmax
    cases hmax
    exact Nat.le_refl _
  exact ⟨h, hexcess, (hfiles 1 (by decide)).trans hexcess, (hfiles 3 (by decide)).trans hexcess,
    (hfiles' 1 (by decide)).trans hfails⟩

end ConcreteSyntax
