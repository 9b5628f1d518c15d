import ConcreteSyntax.Document.Value

/-! # The text a pen writes

A pen writes bytes.  `p.Wrote cs p'` says that from `p` to `p'` these were the UTF-8 form of the
characters `cs`.

Strings are escaped byte by byte in runs (`written_putRuns`).  No byte of a character beyond ASCII needs an
escape, so this is the same as escaping character by character (`wrote_putString`). -/

namespace ConcreteSyntax.Document

/-- The bytes of the UTF-8 form of characters. -/
def utf8 (cs : List Char) : List UInt8 := cs.flatMap String.utf8EncodeChar

theorem utf8_append (cs cs' : List Char) : utf8 (cs ++ cs') = utf8 cs ++ utf8 cs' :=
  List.flatMap_append

theorem toList_toUTF8 (s : String) : s.toUTF8.data.toList = utf8 s.toList := by
  rw [String.toUTF8_eq_toByteArray, ← String.utf8Encode_toList, List.utf8Encode,
    List.toList_data_toByteArray]
  rfl

theorem textOfBytes_of_utf8 {bytes : ByteArray} {cs : List Char} (h : bytes.data.toList = utf8 cs) :
    bytes = (String.ofList cs).toUTF8 ∧ String.fromUTF8? bytes = some (String.ofList cs) := by
  have hbytes : bytes = (String.ofList cs).toUTF8 := by
    refine ByteArray.ext (Array.toList_inj.mp ?_)
    rw [h, toList_toUTF8, String.toList_ofList]
  refine ⟨hbytes, ?_⟩
  rw [hbytes, String.toUTF8_eq_toByteArray, String.fromUTF8?, dif_pos (String.ofList cs).isValidUTF8]
  rfl

/-! ### Pieces -/

namespace Pen

/-- All bytes that were written. -/
def written (p : Pen) : List UInt8 := p.pieces.toList.flatMap (·.data.toList)

/-- The text `cs` was written between two states of a pen. -/
def Wrote (p : Pen) (cs : List Char) (p' : Pen) : Prop := p'.written = p.written ++ utf8 cs

theorem Wrote.refl (p : Pen) : p.Wrote [] p := (List.append_nil _).symm

theorem Wrote.trans {p p' p'' : Pen} {cs cs' : List Char} (h : p.Wrote cs p')
    (h' : p'.Wrote cs' p'') : p.Wrote (cs ++ cs') p'' := by
  rw [Wrote] at h h' ⊢
  rw [h', h, utf8_append, List.append_assoc]

theorem written_putBytes (p : Pen) (bytes : ByteArray) :
    (p.putBytes bytes).written = p.written ++ bytes.data.toList := by
  simp [written, putBytes]

theorem wrote_put (p : Pen) (s : String) : p.Wrote s.toList (p.put s) := by
  rw [Wrote, put, written_putBytes, toList_toUTF8]

end Pen

theorem toList_foldl_append (pieces : List ByteArray) (b : ByteArray) :
    (pieces.foldl (· ++ ·) b).data.toList = b.data.toList ++ pieces.flatMap (·.data.toList) := by
  induction pieces generalizing b with
  | nil => simp
  | cons piece pieces ih =>
      rw [List.foldl_cons, ih, ByteArray.data_append, Array.toList_append, List.flatMap_cons,
        List.append_assoc]

/-! ### Strings -/

/-- What is written for one byte of a string. -/
def escapedByte (b : UInt8) : List UInt8 :=
  match escape? b with
  | some e => utf8 e.toList
  | none => [b]

theorem flatMap_escapedByte {bs : List UInt8} (h : ∀ b ∈ bs, escape? b = none) :
    bs.flatMap escapedByte = bs := by
  induction bs with
  | nil => rfl
  | cons b bs ih =>
      obtain ⟨hb, hbs⟩ := List.forall_mem_cons.mp h
      rw [List.flatMap_cons, ih hbs, escapedByte, hb]
      rfl

theorem toList_extract (bytes : ByteArray) (i j : Nat) :
    (bytes.extract i j).data.toList = (bytes.data.toList.drop i).take (j - i) := by
  rw [ByteArray.data_extract, Array.toList_extract, List.extract_eq_take_drop]

theorem written_putRun {bytes : ByteArray} {start index : Nat} (p : Pen) {run : List UInt8}
    (hle : start ≤ index) (hi : index ≤ bytes.size)
    (hrun : bytes.data.toList.drop start = run ++ bytes.data.toList.drop index) :
    (if start < index then p.putBytes (bytes.extract start index) else p).written =
      p.written ++ run := by
  have hlen : run.length = index - start := by
    have h := congrArg List.length hrun
    rw [List.length_append, List.length_drop, List.length_drop, Array.length_toList] at h
    have : bytes.data.size = bytes.size := rfl
    omega
  split
  next => rw [Pen.written_putBytes, toList_extract, hrun, ← hlen, List.take_left]
  next h =>
    rw [List.eq_nil_of_length_eq_zero (l := run) (by omega), List.append_nil]

/-- Runs and escapes together are what is written for each byte. -/
theorem written_putRuns (bytes : ByteArray) (start index : Nat) (p : Pen) (run : List UInt8)
    (hle : start ≤ index) (hdrop : bytes.data.toList.drop start = run ++ bytes.data.toList.drop index)
    (hrun : ∀ b ∈ run, escape? b = none) :
    (Pen.putRuns bytes start index p).written =
      p.written ++ (bytes.data.toList.drop start).flatMap escapedByte := by
  fun_induction Pen.putRuns bytes start index p generalizing run with
  | case1 start index p hi hnone ih =>
      have hcons : bytes.data.toList.drop index = bytes[index] :: bytes.data.toList.drop (index + 1) :=
        List.drop_eq_getElem_cons hi
      refine ih (run ++ [bytes[index]]) (Nat.le_succ_of_le hle) ?_ ?_
      · rw [hdrop, hcons, List.append_assoc]
        rfl
      · exact List.forall_mem_append.mpr ⟨hrun, List.forall_mem_singleton.mpr hnone⟩
  | case2 start index p hi e he p' ih =>
      have hcons : bytes.data.toList.drop index = bytes[index] :: bytes.data.toList.drop (index + 1) :=
        List.drop_eq_getElem_cons hi
      have hput : (p'.put e).written = p'.written ++ utf8 e.toList := p'.wrote_put e
      have hp' : p'.written = p.written ++ run := written_putRun p hle (Nat.le_of_lt hi) hdrop
      have hbyte : escapedByte bytes[index] = utf8 e.toList := by rw [escapedByte, he]
      rw [ih [] (Nat.le_refl _) rfl nofun, hput, hp', hdrop, List.flatMap_append,
        flatMap_escapedByte hrun, hcons, List.flatMap_cons, hbyte]
      simp only [List.append_assoc]
  | case3 start index p hi hs =>
      have hnil : bytes.data.toList.drop index = [] := List.drop_eq_nil_of_le (Nat.le_of_not_lt hi)
      rw [hnil, List.append_nil] at hdrop
      have hend : bytes.data.toList.drop bytes.size = [] := List.drop_eq_nil_of_le (Nat.le_refl _)
      have hp : (if start < bytes.size then p.putBytes (bytes.extract start bytes.size)
          else p).written = p.written ++ run :=
        written_putRun p (Nat.le_of_lt hs) (Nat.le_refl _) (by rw [hdrop, hend, List.append_nil])
      rw [if_pos hs] at hp
      rw [hp, hdrop, flatMap_escapedByte hrun]
  | case4 start index p hi hs =>
      rw [List.drop_eq_nil_of_le (Nat.le_of_not_lt hs)]
      exact (List.append_nil _).symm

/-- What is written for one character of a string. -/
def escapedChar (c : Char) : List Char :=
  if c.toNat < 128 then
    match escape? (UInt8.ofNat c.toNat) with
    | some e => e.toList
    | none => [c]
  else [c]

theorem escape?_of_ge {b : UInt8} (h : 128 ≤ b.toNat) : escape? b = none := by
  have hne : ∀ n : UInt8, n.toNat < 128 → b ≠ n := by
    rintro n hn rfl
    omega
  have hlt : ¬ b < 0x20 := by
    rw [UInt8.lt_iff_toNat_lt]
    change ¬ b.toNat < 32
    omega
  simp [escape?, hne, hlt]

/-- The bytes of a character above ASCII are above ASCII. -/
theorem ge_of_mem_utf8EncodeChar {c : Char} (h : ¬ c.toNat < 128) {b : UInt8}
    (hb : b ∈ String.utf8EncodeChar c) : 128 ≤ b.toNat := by
  rw [String.utf8EncodeChar] at hb
  have hge : ¬ c.val.toNat ≤ 127 := fun hle => h (Nat.lt_succ_of_le hle)
  rw [if_neg hge] at hb
  repeat' split at hb
  all_goals
    simp only [List.mem_cons, List.not_mem_nil, or_false] at hb
  · rcases hb with rfl | rfl <;> rw [UInt8.toNat_ofNat'] <;> omega
  · rcases hb with rfl | rfl | rfl <;> rw [UInt8.toNat_ofNat'] <;> omega
  · rcases hb with rfl | rfl | rfl | rfl <;> rw [UInt8.toNat_ofNat'] <;> omega

theorem utf8EncodeChar_of_ascii {c : Char} (h : c.toNat < 128) :
    String.utf8EncodeChar c = [UInt8.ofNat c.toNat] := by
  rw [String.utf8EncodeChar]
  exact if_pos (Nat.le_of_lt_succ h)

/-- Escaping the bytes of a character escapes the character. -/
theorem flatMap_escapedByte_char (c : Char) :
    (String.utf8EncodeChar c).flatMap escapedByte = utf8 (escapedChar c) := by
  rw [escapedChar]
  split
  next h =>
    have hone := utf8EncodeChar_of_ascii h
    rw [hone, List.flatMap_singleton, escapedByte]
    cases escape? (UInt8.ofNat c.toNat) with
    | some e => rfl
    | none => exact hone.symm.trans (List.append_nil _).symm
  next h =>
    rw [flatMap_escapedByte fun b hb => escape?_of_ge (ge_of_mem_utf8EncodeChar h hb)]
    exact (List.append_nil _).symm

theorem flatMap_escapedByte_utf8 (cs : List Char) :
    (utf8 cs).flatMap escapedByte = utf8 (cs.flatMap escapedChar) := by
  induction cs with
  | nil => rfl
  | cons c cs ih =>
      rw [utf8, List.flatMap_cons, List.flatMap_append, flatMap_escapedByte_char, List.flatMap_cons,
        utf8_append, ← ih]
      rfl

/-- A string as it is written. -/
def quoted (s : String) : List Char := '"' :: (s.toList.flatMap escapedChar ++ ['"'])

theorem wrote_putString (p : Pen) (s : String) : p.Wrote (quoted s) (p.putString s) := by
  have hruns : (p.put "\"").Wrote (s.toList.flatMap escapedChar)
      (Pen.putRuns s.toUTF8 0 0 (p.put "\"")) := by
    rw [Pen.Wrote, written_putRuns s.toUTF8 0 0 _ [] (Nat.le_refl _) rfl nofun, List.drop_zero,
      toList_toUTF8, flatMap_escapedByte_utf8]
  exact (p.wrote_put "\"").trans (hruns.trans (Pen.wrote_put _ "\""))

end ConcreteSyntax.Document
