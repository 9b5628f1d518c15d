import ConcreteSyntax.Proofs.Document.Written
import ConcreteSyntax.Text.Utf8

/-! # Decoding is the inverse of encoding

Bytes are decoded to a text exactly if they are its UTF-8 form (`decode_eq_ok_iff`).

`Sequence bs c` says that the bytes `bs` are read as the character `c`, by one of the four forms.  A
sequence is the UTF-8 form of its character (`Sequence.encode`), and the UTF-8 form of a character is
a sequence (`sequence_encode`); decoding reads one sequence after another. -/

namespace ConcreteSyntax.Text.Utf8

open Document (utf8 utf8_append)

/-- The bytes are read as the character. -/
inductive Sequence : List UInt8 → Char → Prop
  | one {a : UInt8} : a < 0x80 → Sequence [a] (Char.ofNat a.toNat)
  | two {a b : UInt8} : (0xC2 ≤ a && a ≤ 0xDF) = true → isTail b = true →
      Sequence [a, b] (Char.ofNat (a.toNat % 0x20 * 0x40 + payload b))
  | three {a b c : UInt8} : (0xE0 ≤ a && a ≤ 0xEF) = true → isSecondOfThree a b = true →
      isTail c = true →
      Sequence [a, b, c] (Char.ofNat (a.toNat % 0x10 * 0x1000 + payload b * 0x40 + payload c))
  | four {a b c d : UInt8} : (0xF0 ≤ a && a ≤ 0xF4) = true → isSecondOfFour a b = true →
      isTail c = true → isTail d = true →
      Sequence [a, b, c, d] (Char.ofNat (a.toNat % 0x08 * 0x40000 + payload b * 0x1000 +
        payload c * 0x40 + payload d))

/-! ### Bytes as numbers -/

theorem between_iff {lo b hi : UInt8} :
    (lo ≤ b && b ≤ hi) = true ↔ lo.toNat ≤ b.toNat ∧ b.toNat ≤ hi.toNat := by
  rw [Bool.and_eq_true, decide_eq_true_eq, decide_eq_true_eq, UInt8.le_iff_toNat_le,
    UInt8.le_iff_toNat_le]

theorem isTail_iff {b : UInt8} : isTail b = true ↔ 128 ≤ b.toNat ∧ b.toNat ≤ 191 := between_iff

theorem isSecondOfThree_iff {a b : UInt8} : isSecondOfThree a b = true ↔
    128 ≤ b.toNat ∧ b.toNat ≤ 191 ∧ (a.toNat = 224 → 160 ≤ b.toNat) ∧
      (a.toNat = 237 → b.toNat ≤ 159) := by
  unfold isSecondOfThree
  split
  next h =>
    subst h
    rw [between_iff]
    simp
    omega
  next h =>
    have h : a.toNat ≠ 224 := fun he => h (UInt8.toNat_inj.mp he)
    split
    next h' =>
      subst h'
      rw [between_iff]
      simp
      omega
    next h' =>
      have h' : a.toNat ≠ 237 := fun he => h' (UInt8.toNat_inj.mp he)
      rw [isTail_iff]
      omega

theorem isSecondOfFour_iff {a b : UInt8} : isSecondOfFour a b = true ↔
    128 ≤ b.toNat ∧ b.toNat ≤ 191 ∧ (a.toNat = 240 → 144 ≤ b.toNat) ∧
      (a.toNat = 244 → b.toNat ≤ 143) := by
  unfold isSecondOfFour
  split
  next h =>
    subst h
    rw [between_iff]
    simp
    omega
  next h =>
    have h : a.toNat ≠ 240 := fun he => h (UInt8.toNat_inj.mp he)
    split
    next h' =>
      subst h'
      rw [between_iff]
      simp
      omega
    next h' =>
      have h' : a.toNat ≠ 244 := fun he => h' (UInt8.toNat_inj.mp he)
      rw [isTail_iff]
      omega

theorem toNat_ofNat_char {n : Nat} (h : n.isValidChar) : (Char.ofNat n).toNat = n := by
  rw [Char.ofNat, dif_pos h]
  rfl

theorem ofNat_eq {n : Nat} {b : UInt8} (h : n = b.toNat) : UInt8.ofNat n = b := by
  rw [h, UInt8.ofNat_toNat]

/-! ### Sequences -/

theorem Sequence.encode {bs : List UInt8} {c : Char} (h : Sequence bs c) :
    String.utf8EncodeChar c = bs := by
  unfold String.utf8EncodeChar
  simp only [Char.toNat_val]
  cases h with
  | @one a ha =>
      have ha : a.toNat < 128 := UInt8.lt_iff_toNat_lt.mp ha
      rw [toNat_ofNat_char (.inl (by omega)), if_pos (by omega), UInt8.ofNat_toNat]
  | @two a b ha hb =>
      obtain ⟨ha, ha'⟩ : 194 ≤ a.toNat ∧ a.toNat ≤ 223 := between_iff.mp ha
      obtain ⟨hb, hb'⟩ := isTail_iff.mp hb
      unfold payload
      rw [toNat_ofNat_char (.inl (by omega)), if_neg (by omega), if_pos (by omega)]
      rw [ofNat_eq (b := a) (by omega), ofNat_eq (b := b) (by omega)]
  | @three a b c ha hb hc =>
      obtain ⟨ha, ha'⟩ : 224 ≤ a.toNat ∧ a.toNat ≤ 239 := between_iff.mp ha
      obtain ⟨hb, hb', hlow, hhigh⟩ := isSecondOfThree_iff.mp hb
      obtain ⟨hc, hc'⟩ := isTail_iff.mp hc
      unfold payload
      rw [toNat_ofNat_char (by unfold Nat.isValidChar; omega), if_neg (by omega), if_neg (by omega),
        if_pos (by omega)]
      rw [ofNat_eq (b := a) (by omega), ofNat_eq (b := b) (by omega), ofNat_eq (b := c) (by omega)]
  | @four a b c d ha hb hc hd =>
      obtain ⟨ha, ha'⟩ : 240 ≤ a.toNat ∧ a.toNat ≤ 244 := between_iff.mp ha
      obtain ⟨hb, hb', hlow, hhigh⟩ := isSecondOfFour_iff.mp hb
      obtain ⟨hc, hc'⟩ := isTail_iff.mp hc
      obtain ⟨hd, hd'⟩ := isTail_iff.mp hd
      unfold payload
      rw [toNat_ofNat_char (by unfold Nat.isValidChar; omega), if_neg (by omega), if_neg (by omega),
        if_neg (by omega)]
      rw [ofNat_eq (b := a) (by omega), ofNat_eq (b := b) (by omega), ofNat_eq (b := c) (by omega),
        ofNat_eq (b := d) (by omega)]

theorem sequence_encode (ch : Char) : Sequence (String.utf8EncodeChar ch) ch := by
  have hvalid : ch.toNat < 55296 ∨ 57343 < ch.toNat ∧ ch.toNat < 1114112 := ch.valid
  have hch := Char.ofNat_toNat ch
  generalize hn : ch.toNat = n at hvalid hch
  subst hch
  have hbyte : ∀ {m : Nat}, m < 256 → (UInt8.ofNat m).toNat = m := by
    intro m hm
    rw [UInt8.toNat_ofNat', Nat.mod_eq_of_lt hm]
  unfold String.utf8EncodeChar
  simp only [Char.toNat_val, hn]
  split
  next h =>
    have hone := Sequence.one (a := UInt8.ofNat n) (UInt8.lt_iff_toNat_lt.mpr (by
      rw [hbyte (by omega)]
      exact Nat.lt_succ_of_le h))
    rw [hbyte (by omega)] at hone
    exact hone
  next h =>
    split
    next h' =>
      have htwo := Sequence.two (a := UInt8.ofNat (n / 64 % 32 + 192)) (b := UInt8.ofNat (n % 64 + 128))
        (between_iff.mpr (by rw [hbyte (by omega)]; simp; omega))
        (isTail_iff.mpr (by rw [hbyte (by omega)]; omega))
      unfold payload at htwo
      rw [hbyte (by omega), hbyte (by omega)] at htwo
      rwa [show (n / 64 % 32 + 192) % 32 * 64 + (n % 64 + 128) % 64 = n by omega] at htwo
    next h' =>
      split
      next h'' =>
        have hthree := Sequence.three (a := UInt8.ofNat (n / 4096 % 16 + 224))
          (b := UInt8.ofNat (n / 64 % 64 + 128)) (c := UInt8.ofNat (n % 64 + 128))
          (between_iff.mpr (by rw [hbyte (by omega)]; simp; omega))
          (isSecondOfThree_iff.mpr (by rw [hbyte (by omega), hbyte (by omega)]; omega))
          (isTail_iff.mpr (by rw [hbyte (by omega)]; omega))
        unfold payload at hthree
        rw [hbyte (by omega), hbyte (by omega), hbyte (by omega)] at hthree
        rwa [show (n / 4096 % 16 + 224) % 16 * 4096 + (n / 64 % 64 + 128) % 64 * 64 +
          (n % 64 + 128) % 64 = n by omega] at hthree
      next h'' =>
        have hfour := Sequence.four (a := UInt8.ofNat (n / 262144 % 8 + 240))
          (b := UInt8.ofNat (n / 4096 % 64 + 128)) (c := UInt8.ofNat (n / 64 % 64 + 128))
          (d := UInt8.ofNat (n % 64 + 128))
          (between_iff.mpr (by rw [hbyte (by omega)]; simp; omega))
          (isSecondOfFour_iff.mpr (by rw [hbyte (by omega), hbyte (by omega)]; omega))
          (isTail_iff.mpr (by rw [hbyte (by omega)]; omega))
          (isTail_iff.mpr (by rw [hbyte (by omega)]; omega))
        unfold payload at hfour
        rw [hbyte (by omega), hbyte (by omega), hbyte (by omega), hbyte (by omega)] at hfour
        rwa [show (n / 262144 % 8 + 240) % 8 * 262144 + (n / 4096 % 64 + 128) % 64 * 4096 +
          (n / 64 % 64 + 128) % 64 * 64 + (n % 64 + 128) % 64 = n by omega] at hfour

/-! ### Decoding -/

/-- Decoding reads a sequence and goes on behind it. -/
theorem Sequence.decodeFrom {bs : List UInt8} {ch : Char} (h : Sequence bs ch) (index : Nat)
    (acc : List Char) (rest : List UInt8) :
    decodeFrom index acc (bs ++ rest) = Utf8.decodeFrom (index + bs.length) (ch :: acc) rest := by
  have hge : ∀ {a : UInt8} {n : Nat}, 128 ≤ n → n ≤ a.toNat → ¬ a < 0x80 := by
    intro a n hn ha hlt
    have hlt : a.toNat < 128 := UInt8.lt_iff_toNat_lt.mp hlt
    omega
  cases h with
  | one ha => rw [List.singleton_append, Utf8.decodeFrom.eq_def]; simp [ha]
  | @two a b ha hb =>
      have hbound : 194 ≤ a.toNat ∧ a.toNat ≤ 223 := between_iff.mp ha
      rw [List.cons_append, List.singleton_append, Utf8.decodeFrom.eq_def]
      simp only [if_neg (hge (by omega) hbound.1), if_pos ha, if_pos hb, List.length_cons,
        List.length_nil]
  | @three a b c ha hb hc =>
      have hbound : 224 ≤ a.toNat ∧ a.toNat ≤ 239 := between_iff.mp ha
      have htwo : ¬ (0xC2 ≤ a && a ≤ 0xDF) = true := by
        intro h
        have h : 194 ≤ a.toNat ∧ a.toNat ≤ 223 := between_iff.mp h
        omega
      rw [List.cons_append, List.cons_append, List.singleton_append, Utf8.decodeFrom.eq_def]
      simp only [if_neg (hge (by omega) hbound.1), if_neg htwo, if_pos ha, if_pos hb, if_pos hc,
        List.length_cons, List.length_nil]
  | @four a b c d ha hb hc hd =>
      have hbound : 240 ≤ a.toNat ∧ a.toNat ≤ 244 := between_iff.mp ha
      have htwo : ¬ (0xC2 ≤ a && a ≤ 0xDF) = true := by
        intro h
        have h : 194 ≤ a.toNat ∧ a.toNat ≤ 223 := between_iff.mp h
        omega
      have hthree : ¬ (0xE0 ≤ a && a ≤ 0xEF) = true := by
        intro h
        have h : 224 ≤ a.toNat ∧ a.toNat ≤ 239 := between_iff.mp h
        omega
      rw [List.cons_append, List.cons_append, List.cons_append, List.singleton_append,
        Utf8.decodeFrom.eq_def]
      simp only [if_neg (hge (by omega) hbound.1), if_neg htwo, if_neg hthree, if_pos ha, if_pos hb,
        if_pos hc, if_pos hd, List.length_cons, List.length_nil]

theorem decodeFrom_utf8 (cs : List Char) (index : Nat) (acc : List Char) :
    decodeFrom index acc (utf8 cs) = .ok (acc.reverse ++ cs) := by
  induction cs generalizing index acc with
  | nil => rw [List.append_nil]; rfl
  | cons ch cs ih =>
      rw [utf8, List.flatMap_cons, (sequence_encode ch).decodeFrom]
      exact (ih _ _).trans (by simp)

theorem Sequence.append {bs rest : List UInt8} {ch : Char} {acc cs : List Char} (h : Sequence bs ch)
    (hrest : ∃ cs', cs = (ch :: acc).reverse ++ cs' ∧ rest = utf8 cs') :
    ∃ cs', cs = acc.reverse ++ cs' ∧ bs ++ rest = utf8 cs' := by
  obtain ⟨cs', rfl, rfl⟩ := hrest
  refine ⟨ch :: cs', by simp, ?_⟩
  rw [← h.encode]
  rfl

/-- What was decoded was encoded. -/
theorem eq_utf8_of_decodeFrom {index : Nat} {acc : List Char} {bytes : List UInt8}
    {cs : List Char} (h : decodeFrom index acc bytes = .ok cs) :
    ∃ cs', cs = acc.reverse ++ cs' ∧ bytes = utf8 cs' := by
  fun_induction decodeFrom index acc bytes with
  | case1 index acc =>
      cases h
      exact ⟨[], (List.append_nil _).symm, rfl⟩
  | case2 index acc a as ha ih => exact (Sequence.one ha).append (ih h)
  | case4 index acc a _ ha b bs hb ih => exact (Sequence.two ha hb).append (ih h)
  | case8 index acc a _ _ ha b hb c cs hc ih => exact (Sequence.three ha hb hc).append (ih h)
  | case14 index acc a _ _ _ ha b hb c hc d ds hd ih =>
      exact (Sequence.four ha hb hc hd).append (ih h)
  | _ => cases h

/-- **Decoding.**  Bytes are read as a text exactly if they are its UTF-8 form. -/
theorem decode_eq_ok_iff {bytes : List UInt8} {s : String} :
    decode bytes = .ok s ↔ bytes = utf8 s.toList := by
  unfold decode
  constructor
  · intro h
    cases hd : decodeFrom 0 [] bytes with
    | error fault =>
        rw [hd] at h
        cases h
    | ok cs =>
        rw [hd] at h
        cases h
        obtain ⟨cs', rfl, hbytes⟩ := eq_utf8_of_decodeFrom hd
        rw [String.toList_ofList]
        exact hbytes
  · rintro rfl
    rw [decodeFrom_utf8]
    simp [Except.map]

end ConcreteSyntax.Text.Utf8
