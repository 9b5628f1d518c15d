import ConcreteSyntax.Output.Buffered
import ConcreteSyntax.Proofs.Document.Written

/-! # What arrives in a sink

However a document is cut into pieces, and however few bytes the sink takes in each write, the sink
ends up with the beginning of the document that it has room for.

* **Writes** (`Sink.writeFrom_spec`).  Writing again and again what is left hands over as many bytes as
  there is room for, and stops exactly if that is not all.
* **The buffer** (`Handed`, `Stopped`).  While nothing failed, what the sink took and what waits in the
  buffer are together all that was written (`Handed`).  After a failure the sink is full, with the beginning
  of what was written (`Stopped`), so what is offered once more at the end changes nothing.
* **Documents** (`Sink.deliverBuffered_spec`).  Every piece keeps one of the two (`Handed.write`).
* **No limit** (`Sink.deliver_unlimited`).  Without a buffer everything arrives in a sink that is never
  full. -/

namespace ConcreteSyntax.Output

open Document (toList_extract)

/-! ### Room -/

namespace Sink

variable {s s' s'' : Sink}

/-- The bytes a sink has taken. -/
def taken (s : Sink) : List UInt8 := s.accepted.data.toList

theorem length_taken (s : Sink) : s.taken.length = s.accepted.size := Array.length_toList

/-- A sink that is not full takes a byte in every write. -/
def Willing (s : Sink) : Prop := s.chunk ≠ some 0

theorem willing_default : Willing {} := by
  intro h
  cases h

theorem room_le (s : Sink) (n : Nat) : s.room n ≤ n := by
  unfold room
  split <;> omega

theorem room_mono {n m : Nat} (h : n ≤ m) : s.room n ≤ s.room m := by
  unfold room
  split <;> omega

theorem room_of_lt {n m : Nat} (h : s.room n < n) (hm : n ≤ m) : s.room m = s.room n := by
  unfold room at h ⊢
  cases hc : s.capacity with
  | none =>
      rw [hc] at h
      exact absurd h (Nat.lt_irrefl n)
  | some c =>
      rw [hc] at h
      simp only at h ⊢
      omega

theorem room_of_le {n k : Nat} (h : k ≤ s.room n) : s.room k = k := by
  unfold room at h ⊢
  cases hc : s.capacity with
  | none => rfl
  | some c =>
      rw [hc] at h
      simp only at h ⊢
      omega

theorem bound_le (s : Sink) (n : Nat) : s.bound n ≤ s.room n := by
  unfold bound
  split
  · exact Nat.le_refl _
  · exact Nat.min_le_left ..

theorem le_room_of_offer {n k : Nat} (h : s.offer n = .ok k) : k ≤ s.room n := by
  have hle := s.bound_le n
  unfold offer at h
  split at h
  next => cases h
  next =>
    cases h
    omega

/-- Only a full sink answers with an error. -/
theorem room_of_offer_error {n : Nat} {cause : String} (h : s.offer n = .error cause) :
    s.room n = 0 := by
  unfold offer at h
  split at h
  next hroom _ => exact hroom
  next => cases h

theorem room_of_offer_zero (hs : s.Willing) {n : Nat} (h : s.offer n = .ok 0) : s.room n = 0 := by
  unfold offer at h
  split at h
  next => cases h
  next =>
    have hmin : min (s.bound n) (max 1 (s.portion s.writes (s.bound n))) = 0 := Except.ok.inj h
    have hbound : s.bound n = 0 := by omega
    unfold bound at hbound
    cases hc : s.chunk with
    | none =>
        rw [hc] at hbound
        exact hbound
    | some c =>
        have hpos : 0 < c := Nat.pos_of_ne_zero fun hz => hs (hz ▸ hc)
        rw [hc] at hbound
        simp only at hbound
        omega

/-! ### Writes -/

/-- The sink is as it was before, but that it has taken the bytes `w`. -/
structure Took (s : Sink) (w : List UInt8) (s' : Sink) : Prop where
  capacity : s'.capacity = s.capacity
  chunk : s'.chunk = s.chunk
  flushError : s'.flushError = s.flushError
  taken : s'.taken = s.taken ++ w

theorem Took.refl (s : Sink) : s.Took [] s := ⟨rfl, rfl, rfl, (List.append_nil _).symm⟩

theorem Took.trans {w w' : List UInt8} (h : s.Took w s') (h' : s'.Took w' s'') :
    s.Took (w ++ w') s'' where
  capacity := h'.capacity.trans h.capacity
  chunk := h'.chunk.trans h.chunk
  flushError := h'.flushError.trans h.flushError
  taken := by rw [h'.taken, h.taken, List.append_assoc]

theorem Took.willing {w : List UInt8} (h : s.Took w s') (hs : s.Willing) : s'.Willing := by
  unfold Willing
  rw [h.chunk]
  exact hs

theorem Took.room {w : List UInt8} (h : s.Took w s') (hw : s.room w.length = w.length) (n : Nat) :
    s.room (w.length + n) = w.length + s'.room n := by
  have hsize : s'.accepted.size = s.accepted.size + w.length := by
    rw [← length_taken, ← length_taken, h.taken, List.length_append]
  unfold Sink.room at hw ⊢
  rw [h.capacity, hsize]
  cases hc : s.capacity with
  | none => rfl
  | some c =>
      rw [hc] at hw
      simp only at hw ⊢
      omega

theorem took_take (s : Sink) (bytes : ByteArray) (start n : Nat) :
    s.Took ((bytes.data.toList.drop start).take n) (s.take bytes start n) := by
  refine ⟨rfl, rfl, rfl, ?_⟩
  simp only [taken, take, ByteArray.data_append, Array.toList_append]
  rw [toList_extract, Nat.add_sub_cancel_left]

/-- Room for the bytes from an offset on, after `k` of them were taken. -/
theorem room_take {bytes : ByteArray} {start k : Nat} (h : k ≤ s.room (bytes.size - start)) :
    s.room (bytes.size - start) = k + (s.take bytes start k).room (bytes.size - (start + k)) := by
  have hle := s.room_le (bytes.size - start)
  have hlength : ((bytes.data.toList.drop start).take k).length = k := by
    rw [List.length_take, List.length_drop, Array.length_toList]
    have : bytes.data.size = bytes.size := rfl
    omega
  have hroom := (s.took_take bytes start k).room (by rw [hlength]; exact room_of_le h)
    (bytes.size - (start + k))
  rw [hlength] at hroom
  rw [← hroom]
  congr 1
  omega

/-- Of the bytes from `start` on the sink takes as many as it has room for; it stops where that is not
all. -/
theorem writeFrom_spec (noByte : String) (bytes : ByteArray) (start : Nat) (s : Sink)
    (hs : s.Willing) {n : Nat} (hn : s.room (bytes.size - start) = n) :
    ∃ s', s.Took ((bytes.data.toList.drop start).take n) s' ∧
      (n = bytes.size - start → writeFrom noByte bytes start s = (s', none)) ∧
      (n < bytes.size - start →
        ∃ cause, writeFrom noByte bytes start s = (s', some (start + n, cause))) := by
  fun_induction writeFrom noByte bytes start s generalizing n with
  | case1 start s hlt cause hoffer =>
      obtain rfl : 0 = n := (room_of_offer_error hoffer).symm.trans hn
      exact ⟨_, took_take s bytes start 0, fun h => by omega, fun _ => ⟨cause, rfl⟩⟩
  | case2 start s hlt hoffer =>
      obtain rfl : 0 = n := (room_of_offer_zero hs hoffer).symm.trans hn
      exact ⟨_, took_take s bytes start 0, fun h => by omega, fun _ => ⟨noByte, rfl⟩⟩
  | case3 start s hlt k hoffer ih =>
      have htook := took_take s bytes start (k + 1)
      have hroom := room_take (k := k + 1) (le_room_of_offer hoffer)
      rw [hn] at hroom
      obtain ⟨s', htook', hall, hstop⟩ := ih (htook.willing hs) rfl
      refine ⟨s', ?_, fun h => hall (by omega), fun h => ?_⟩
      · rw [hroom, List.take_add, List.drop_drop]
        exact htook.trans htook'
      · obtain ⟨cause, hc⟩ := hstop (by omega)
        refine ⟨cause, ?_⟩
        rw [hc, hroom, Nat.add_assoc]
  | case4 start s hlt =>
      have hend : bytes.size ≤ start := Nat.le_of_not_lt hlt
      refine ⟨s, ?_, fun _ => rfl, fun h => by omega⟩
      rw [List.drop_eq_nil_of_le (by rw [Array.length_toList]; exact hend), List.take_nil]
      exact .refl s

theorem writeFrom_zero_spec (noByte : String) (bytes : ByteArray) (hs : s.Willing) :
    ∃ s', s.Took (bytes.data.toList.take (s.room bytes.data.toList.length)) s' ∧
      (s.room bytes.data.toList.length = bytes.data.toList.length →
        writeFrom noByte bytes 0 s = (s', none)) ∧
      (s.room bytes.data.toList.length < bytes.data.toList.length →
        ∃ n cause, writeFrom noByte bytes 0 s = (s', some (n, cause))) := by
  have hsize : bytes.size - 0 = bytes.data.toList.length := Array.length_toList.symm
  obtain ⟨s', htook, hall, hstop⟩ := writeFrom_spec noByte bytes 0 s hs rfl
  rw [hsize] at htook hall hstop
  exact ⟨s', htook, hall, fun h => ⟨_, hstop h⟩⟩

/-- A sink that took all of `w` and then as much of `w'` as it had room for took as much of both as it
had room for. -/
theorem Took.append {w w' : List UInt8} (h : s.Took w s') (hw : s.room w.length = w.length)
    (h' : s'.Took (w'.take (s'.room w'.length)) s'') :
    s.Took ((w ++ w').take (s.room (w ++ w').length)) s'' := by
  rw [List.length_append, h.room hw, List.take_length_add_append]
  exact h.trans h'

end Sink

/-! ### The buffer -/

section Buffer

variable {s : Sink} {w w' : List UInt8} {b b' : Buffered} {cause : String}

/-- The bytes that wait in the buffer. -/
def Buffered.waiting (b : Buffered) : List UInt8 := b.buffer.data.toList

/-- Of the bytes `w`, which were written, the sink has taken the first, and the others wait. -/
def Handed (s : Sink) (w : List UInt8) (b : Buffered) : Prop :=
  ∃ u, s.room u.length = u.length ∧ s.Took u b.sink ∧ w = u ++ b.waiting

/-- The sink has taken the beginning of `w` that it had room for, which is not all. -/
structure Stopped (s : Sink) (w : List UInt8) (b : Buffered) : Prop where
  lt : s.room w.length < w.length
  took : s.Took (w.take (s.room w.length)) b.sink

/-- How things are when `w` was written, with a failure or without. -/
def Written (s : Sink) (w : List UInt8) : Buffered × Option String → Prop
  | (b, none) => Handed s w b
  | (b, some _) => Stopped s w b

theorem Stopped.append (h : Stopped s w b) (w' : List UInt8) : Stopped s (w ++ w') b := by
  have hlt := h.lt
  have hroom : s.room (w ++ w').length = s.room w.length := by
    apply Sink.room_of_lt hlt
    rw [List.length_append]
    omega
  constructor
  · rw [hroom, List.length_append]
    omega
  · rw [hroom, List.take_append_of_le_length (Nat.le_of_lt hlt)]
    exact h.took

theorem Stopped.room_eq_zero (h : Stopped s w b) (n : Nat) : b.sink.room n = 0 := by
  have hlt := h.lt
  have hlength : (w.take (s.room w.length)).length = s.room w.length := by
    rw [List.length_take]
    omega
  have hroom := h.took.room (by rw [hlength]; exact Sink.room_of_le (Nat.le_refl _)) (w.length + n)
  have hfull := Sink.room_of_lt hlt (m := s.room w.length + (w.length + n)) (by omega)
  have hmono := b.sink.room_mono (n := n) (m := w.length + n) (by omega)
  rw [hlength] at hroom
  omega

/-- Once all was taken and nothing waits, what the sink takes of further bytes continues `w`. -/
theorem written_of_took {s' s'' : Sink} (h : s.Took w s') (hw : s.room w.length = w.length)
    (h' : s'.Took (w'.take (s'.room w'.length)) s'') :
    (s'.room w'.length = w'.length → ∀ b, b.sink = s'' → b.waiting = [] → Handed s (w ++ w') b) ∧
    (s'.room w'.length < w'.length → ∀ b, b.sink = s'' → Stopped s (w ++ w') b) := by
  have htook := h.append hw h'
  have hroom : s.room (w ++ w').length = w.length + s'.room w'.length := by
    rw [List.length_append, h.room hw]
  refine ⟨fun hall b hb hwait => ?_, fun hlt b hb => ?_⟩
  · have hfits : s.room (w ++ w').length = (w ++ w').length := by
      rw [hroom, hall, List.length_append]
    rw [hfits, List.take_length] at htook
    exact ⟨w ++ w', hfits, hb ▸ htook, by rw [hwait, List.append_nil]⟩
  · refine ⟨?_, hb ▸ htook⟩
    rw [hroom, List.length_append]
    omega

theorem Handed.drain (h : Handed s w b) (hs : s.Willing) :
    Written s w b.drain ∧ (b.drain.2 = none → b.drain.1.waiting = []) := by
  obtain ⟨u, hu, htook, rfl⟩ := h
  obtain ⟨s', htook', hall, hstop⟩ := Sink.writeFrom_zero_spec "failed to write the buffered data"
    b.buffer (htook.willing hs)
  obtain ⟨hhanded, hstopped⟩ := written_of_took htook hu htook'
  unfold Buffered.drain
  rcases Nat.lt_or_eq_of_le (b.sink.room_le b.waiting.length) with hlt | heq
  · obtain ⟨n, cause, hc⟩ := hstop hlt
    rw [hc]
    exact ⟨hstopped hlt _ rfl, fun h => by cases h⟩
  · rw [hall heq]
    exact ⟨hhanded heq _ rfl rfl, fun _ => rfl⟩

/-- A piece goes through to the sink if it is as large as the buffer and nothing waits; a smaller one
waits. -/
theorem Handed.writeThrough (h : Handed s w b) (hs : s.Willing) {piece : ByteArray}
    (hb : bufferSize ≤ piece.size → b.waiting = []) :
    Written s (w ++ piece.data.toList) (b.writeThrough piece) := by
  obtain ⟨u, hu, htook, rfl⟩ := h
  unfold Buffered.writeThrough
  split
  next hlarge =>
    obtain ⟨s', htook', hall, hstop⟩ := Sink.writeFrom_zero_spec "failed to write whole buffer" piece
      (htook.willing hs)
    rw [hb hlarge, List.append_nil]
    obtain ⟨hhanded, hstopped⟩ := written_of_took htook hu htook'
    unfold Sink.writeAll
    rcases Nat.lt_or_eq_of_le (b.sink.room_le piece.data.toList.length) with hlt | heq
    · obtain ⟨n, cause, hc⟩ := hstop hlt
      rw [hc]
      exact hstopped hlt _ rfl
    · rw [hall heq]
      exact hhanded heq _ rfl (hb hlarge)
  next =>
    refine ⟨u, hu, htook, ?_⟩
    simp [Buffered.waiting]

theorem Handed.write (h : Handed s w b) (hs : s.Willing) (piece : ByteArray) :
    Written s (w ++ piece.data.toList) (b.write piece) := by
  unfold Buffered.write
  simp only
  split
  next =>
    obtain ⟨u, hu, htook, rfl⟩ := h
    exact ⟨u, hu, htook, by simp [Buffered.waiting]⟩
  next =>
    split
    next =>
      -- what waits goes first
      obtain ⟨hwritten, hempty⟩ := h.drain hs
      cases hd : b.drain with
      | mk b' stop =>
          rw [hd] at hwritten hempty
          cases stop with
          | some cause => exact Stopped.append hwritten _
          | none => exact Handed.writeThrough hwritten hs fun _ => hempty rfl
    next hlt hle =>
      -- a piece that fills the buffer exactly is as large as the buffer only if nothing waits
      refine h.writeThrough hs fun hlarge => List.eq_nil_of_length_eq_zero ?_
      have hsize : b.waiting.length = b.buffer.size := Array.length_toList
      have : 0 < bufferSize := by decide
      omega

theorem Handed.writePieces (hs : s.Willing) : ∀ (pieces : List ByteArray) {w : List UInt8}
    {b : Buffered}, Handed s w b →
    Written s (w ++ pieces.flatMap (·.data.toList)) (Buffered.writePieces pieces b)
  | [], w, b, h => by
      rw [List.flatMap_nil, List.append_nil]
      exact h
  | piece :: pieces, w, b, h => by
      have hpiece := h.write hs piece
      rw [List.flatMap_cons, ← List.append_assoc, Buffered.writePieces]
      cases hw : b.write piece with
      | mk b' stop =>
          rw [hw] at hpiece
          cases stop with
          | some cause => exact Stopped.append hpiece _
          | none => exact Handed.writePieces hs pieces hpiece

/-- After a failure, what is offered once more is not taken. -/
theorem Stopped.drain (h : Stopped s w b) (hs : s.Willing) :
    s.Took (w.take (s.room w.length)) b.drain.1.sink := by
  obtain ⟨s', htook, hall, hstop⟩ := Sink.writeFrom_zero_spec "failed to write the buffered data"
    b.buffer (h.took.willing hs)
  rw [h.room_eq_zero, List.take_zero] at htook
  rw [h.room_eq_zero] at hall hstop
  have hsame : s.Took (w.take (s.room w.length)) s' := by
    have := h.took.trans htook
    rwa [List.append_nil] at this
  unfold Buffered.drain
  rcases Nat.eq_zero_or_pos b.buffer.data.toList.length with heq | hlt
  · rw [hall heq.symm]
    exact hsame
  · obtain ⟨n, cause, hc⟩ := hstop hlt
    rw [hc]
    exact hsame

theorem drain_of_waiting_eq_nil (h : b.waiting = []) : b.drain.1.sink = b.sink := by
  have hsize : b.buffer.size = 0 := by
    have := congrArg List.length h
    rwa [Buffered.waiting, Array.length_toList] at this
  unfold Buffered.drain
  rw [Sink.writeFrom, dif_neg (by omega)]

theorem Handed.flush (h : Handed s w b) (hs : s.Willing) :
    (s.room w.length = w.length ∧ b.flush.2 = s.flushError ∧ b.flush.1.waiting = [] ∧
      b.flush.1.sink.taken = s.taken ++ w) ∨
    ((∃ cause, b.flush.2 = some cause) ∧ Stopped s w b.flush.1) := by
  obtain ⟨hwritten, hempty⟩ := h.drain hs
  unfold Buffered.flush
  cases hd : b.drain with
  | mk b' stop =>
      rw [hd] at hwritten hempty
      cases stop with
      | some cause => exact .inr ⟨⟨cause, rfl⟩, hwritten⟩
      | none =>
          obtain ⟨u, hu, htook, rfl⟩ : Handed s w b' := hwritten
          have hwait : b'.waiting = [] := hempty rfl
          rw [hwait, List.append_nil]
          exact .inl ⟨hu, htook.flushError, hwait, htook.taken⟩

end Buffer

/-- Through a buffer, a sink takes the beginning of what is written that it has room for.  Writing
succeeds exactly if that is all and the sink can be flushed. -/
theorem Sink.deliverBuffered_spec {s : Sink} (hs : s.Willing) (pieces : List ByteArray)
    {d : List UInt8} (hd : pieces.flatMap (·.data.toList) = d) :
    (s.deliverBuffered pieces).1.taken = s.taken ++ d.take (s.room d.length) ∧
      ((s.deliverBuffered pieces).2 = none ↔ s.room d.length = d.length ∧ s.flushError = none) := by
  have hstart : Handed s [] ⟨s, .empty⟩ := ⟨[], Nat.le_zero.mp (s.room_le 0), .refl s, rfl⟩
  have hwritten := Handed.writePieces hs pieces hstart
  rw [List.nil_append, hd] at hwritten
  have hstop : ∀ {b : Buffered} {cause : String}, Stopped s d b →
      b.drain.1.sink.taken = s.taken ++ d.take (s.room d.length) ∧
        (some cause = none ↔ s.room d.length = d.length ∧ s.flushError = none) := by
    intro b cause h
    refine ⟨(h.drain hs).taken, ⟨fun hnone => ?_, fun hall => ?_⟩⟩
    · cases hnone
    · exact absurd hall.1 (Nat.ne_of_lt h.lt)
  unfold Sink.deliverBuffered Buffered.writeDocument
  cases hp : Buffered.writePieces pieces ⟨s, .empty⟩ with
  | mk b stop =>
      rw [hp] at hwritten
      cases stop with
      | some cause => exact hstop hwritten
      | none =>
          rcases Handed.flush hwritten hs with ⟨hall, hresult, hwait, htaken⟩ | ⟨⟨cause, hc⟩, h⟩
          · simp only
            rw [drain_of_waiting_eq_nil hwait, htaken, hall, List.take_length, hresult]
            exact ⟨rfl, fun h => ⟨rfl, h⟩, fun h => h.2⟩
          · simp only
            rw [hc]
            exact hstop h

/-! ### Sinks without a limit -/

theorem Sink.writePieces_unlimited {s : Sink} (hs : s.Willing) (hcapacity : s.capacity = none)
    (pieces : List ByteArray) :
    ∃ s', Sink.writePieces pieces s = (s', none) ∧ s.Took (pieces.flatMap (·.data.toList)) s' := by
  induction pieces generalizing s with
  | nil => exact ⟨s, rfl, .refl s⟩
  | cons piece pieces ih =>
      have hroom : s.room piece.data.toList.length = piece.data.toList.length := by
        rw [Sink.room, hcapacity]
      obtain ⟨s₁, htook, hall, _⟩ := Sink.writeFrom_zero_spec "failed to write whole buffer" piece hs
      rw [hroom, List.take_length] at htook
      obtain ⟨s₂, hrest, htook'⟩ := ih (htook.willing hs) (htook.capacity.trans hcapacity)
      refine ⟨s₂, ?_, htook.trans htook'⟩
      rw [Sink.writePieces, Sink.writeAll, hall hroom]
      exact hrest

/-- Written directly and flushed, all pieces arrive in a sink that takes any number of bytes. -/
theorem Sink.deliver_unlimited {s : Sink} (hs : s.Willing) (hcapacity : s.capacity = none)
    (pieces : List ByteArray) :
    (s.deliver pieces).1.taken = s.taken ++ pieces.flatMap (·.data.toList) ∧
      (s.deliver pieces).2 = s.flushError := by
  obtain ⟨s', hwrite, htook⟩ := Sink.writePieces_unlimited hs hcapacity pieces
  rw [Sink.deliver, hwrite]
  exact ⟨htook.taken, htook.flushError⟩

end ConcreteSyntax.Output
