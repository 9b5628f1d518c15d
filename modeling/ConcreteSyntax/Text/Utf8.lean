/-! # Decoding UTF-8

`decode` reads a list of bytes as UTF-8.  Overlong forms, surrogates and values above U+10FFFF are
refused at the second byte of a sequence.  A fault names the byte where the offending sequence starts
and, unless the bytes merely end too early, how many of its bytes could have started a sequence. -/

namespace ConcreteSyntax.Text.Utf8

/-- Why bytes are not UTF-8. -/
inductive Fault where
  /-- The `length` bytes from `index` start no sequence that the byte after them continues. -/
  | invalid (index length : Nat)
  /-- The bytes end inside a sequence that starts at `index`. -/
  | incomplete (index : Nat)
deriving DecidableEq, Repr

/-- A fault in words. -/
def Fault.message : Fault → String
  | invalid index length => s!"invalid utf-8 sequence of {length} bytes from index {index}"
  | incomplete index => s!"incomplete utf-8 byte sequence from index {index}"

/-- A byte that continues a sequence. -/
def isTail (b : UInt8) : Bool := 0x80 ≤ b && b ≤ 0xBF

/-- A second byte that may follow the first byte of a sequence of three. -/
def isSecondOfThree (first b : UInt8) : Bool :=
  if first = 0xE0 then 0xA0 ≤ b && b ≤ 0xBF
  else if first = 0xED then 0x80 ≤ b && b ≤ 0x9F
  else isTail b

/-- A second byte that may follow the first byte of a sequence of four. -/
def isSecondOfFour (first b : UInt8) : Bool :=
  if first = 0xF0 then 0x90 ≤ b && b ≤ 0xBF
  else if first = 0xF4 then 0x80 ≤ b && b ≤ 0x8F
  else isTail b

/-- The payload of a continuing byte. -/
def payload (b : UInt8) : Nat := b.toNat % 0x40

/-- Decode bytes that start at `index`; `acc` holds the characters before them, latest first. -/
def decodeFrom (index : Nat) (acc : List Char) : List UInt8 → Except Fault (List Char)
  | [] => .ok acc.reverse
  | a :: as =>
    if a < 0x80 then decodeFrom (index + 1) (Char.ofNat a.toNat :: acc) as
    else if 0xC2 ≤ a && a ≤ 0xDF then
      match as with
      | [] => .error (.incomplete index)
      | b :: bs =>
        if isTail b then
          decodeFrom (index + 2) (Char.ofNat (a.toNat % 0x20 * 0x40 + payload b) :: acc) bs
        else .error (.invalid index 1)
    else if 0xE0 ≤ a && a ≤ 0xEF then
      match as with
      | [] => .error (.incomplete index)
      | b :: bs =>
        if isSecondOfThree a b then
          match bs with
          | [] => .error (.incomplete index)
          | c :: cs =>
            if isTail c then
              decodeFrom (index + 3)
                (Char.ofNat (a.toNat % 0x10 * 0x1000 + payload b * 0x40 + payload c) :: acc) cs
            else .error (.invalid index 2)
        else .error (.invalid index 1)
    else if 0xF0 ≤ a && a ≤ 0xF4 then
      match as with
      | [] => .error (.incomplete index)
      | b :: bs =>
        if isSecondOfFour a b then
          match bs with
          | [] => .error (.incomplete index)
          | c :: cs =>
            if isTail c then
              match cs with
              | [] => .error (.incomplete index)
              | d :: ds =>
                if isTail d then
                  decodeFrom (index + 4)
                    (Char.ofNat (a.toNat % 0x08 * 0x40000 + payload b * 0x1000 + payload c * 0x40
                      + payload d) :: acc) ds
                else .error (.invalid index 3)
            else .error (.invalid index 2)
        else .error (.invalid index 1)
    else .error (.invalid index 1)

/-- The text that the bytes encode. -/
def decode (bytes : List UInt8) : Except Fault String :=
  (decodeFrom 0 [] bytes).map String.ofList

end ConcreteSyntax.Text.Utf8
