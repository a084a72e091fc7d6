/-!
# UTF-8

A scalar value is written as a lead byte and up to three trailing bytes. `Lead.ofByte?` is the table
of the well-formed byte sequences of the Unicode standard: for each lead byte, the ranges in which
the bytes behind it lie. Only the first trailing byte ever has a narrower range than `80..BF`; that
is what keeps out overlong forms, surrogates and values above `10FFFF`.

`decode` reads scalar values until the bytes end or do not fit the table, and then says where.

Main statements:

* `append_rest_of_readScalar`: a sequence and the bytes behind it make up what was read.
* `isValidChar_of_readScalar`: what a sequence writes is a scalar value.
-/

namespace LinePattern.Utf8

/-- Why bytes are not UTF-8. -/
inductive DecodeError where
  /-- The bytes end inside the sequence that starts at `index`, which is so far well-formed. -/
  | incomplete (index : Nat)
  /-- The byte at `index` leads no sequence, and `length` is one; or the `length` bytes from `index`
  on start a sequence that the byte behind them does not continue. -/
  | invalid (index length : Nat)
  deriving DecidableEq, Repr

/-- The text of the error. -/
def DecodeError.message : DecodeError → String
  | incomplete index => s!"incomplete utf-8 byte sequence from index {index}"
  | invalid index length => s!"invalid utf-8 sequence of {length} bytes from index {index}"

/-- The bytes from `first` to `last`, both included. -/
structure ByteRange where
  /-- The least byte of the range. -/
  first : UInt8
  /-- The greatest byte of the range. -/
  last : UInt8
  deriving DecidableEq, Repr

namespace ByteRange

/-- Whether the byte lies in the range. -/
def contains (r : ByteRange) (b : UInt8) : Bool := r.first ≤ b && b ≤ r.last

/-- A range by its bounds, as numbers: the form in which bounds are compared. -/
theorem contains_iff {r : ByteRange} {b : UInt8} :
    r.contains b = true ↔ r.first.toNat ≤ b.toNat ∧ b.toNat ≤ r.last.toNat := by
  simp [contains, UInt8.le_iff_toNat_le]

/-- The range of a trailing byte where the lead byte does not narrow it. -/
def trailing : ByteRange := ⟨0x80, 0xBF⟩

end ByteRange

/-- What a lead byte says of the sequence that it starts. -/
structure Lead where
  /-- The bits of the scalar value that stand in the lead byte. -/
  bits : Nat
  /-- The ranges of the bytes behind the lead byte, in order. -/
  trail : List ByteRange
  deriving DecidableEq, Repr

/-- The table of well-formed sequences, by lead byte. A byte that leads none is not in it. -/
def Lead.ofByte? (b : UInt8) : Option Lead :=
  if b ≤ 0x7F then some ⟨b.toNat, []⟩
  else if b < 0xC2 then none
  else if b ≤ 0xDF then some ⟨b.toNat - 0xC0, [.trailing]⟩
  else if b = 0xE0 then some ⟨b.toNat - 0xE0, [⟨0xA0, 0xBF⟩, .trailing]⟩
  else if b = 0xED then some ⟨b.toNat - 0xE0, [⟨0x80, 0x9F⟩, .trailing]⟩
  else if b ≤ 0xEF then some ⟨b.toNat - 0xE0, [.trailing, .trailing]⟩
  else if b = 0xF0 then some ⟨b.toNat - 0xF0, [⟨0x90, 0xBF⟩, .trailing, .trailing]⟩
  else if b ≤ 0xF3 then some ⟨b.toNat - 0xF0, [.trailing, .trailing, .trailing]⟩
  else if b = 0xF4 then some ⟨b.toNat - 0xF0, [⟨0x80, 0x8F⟩, .trailing, .trailing]⟩
  else none

/-- How reading one sequence ends. -/
inductive Reading where
  /-- The sequence is whole: `length` bytes that write `scalar`, in front of `rest`. -/
  | whole (scalar length : Nat) (rest : List UInt8)
  /-- The bytes end before the sequence does. -/
  | cutOff
  /-- The byte behind the first `length` bytes does not fit them; or the first byte leads no
  sequence, and `length` is one. -/
  | broken (length : Nat)
  deriving DecidableEq, Repr

/-- Reads the trailing bytes of a sequence, a byte for each range, where the `length` bytes in front
of them write `bits`. A trailing byte holds six bits. -/
def readTrail (bits length : Nat) : List ByteRange → List UInt8 → Reading
  | [], bytes => .whole bits length bytes
  | _ :: _, [] => .cutOff
  | r :: rs, b :: bytes =>
    if r.contains b then readTrail (bits * 64 + (b.toNat - 0x80)) (length + 1) rs bytes
    else .broken length

/-- Reads the sequence that the byte `b` leads. -/
def readScalar (b : UInt8) (bytes : List UInt8) : Reading :=
  match Lead.ofByte? b with
  | none => .broken 1
  | some lead => readTrail lead.bits 1 lead.trail bytes

/-- The trailing bytes that are read are the front of the bytes, and each counts. -/
theorem append_rest_of_readTrail {bits length scalar length' : Nat} {ranges : List ByteRange}
    {bytes rest : List UInt8}
    (h : readTrail bits length ranges bytes = .whole scalar length' rest) :
    ∃ trail, bytes = trail ++ rest ∧ length' = length + trail.length := by
  -- Of the four ways in which reading goes on or ends, two give no whole sequence.
  fun_induction readTrail bits length ranges bytes with
  | case1 bits length bytes =>
    cases h
    exact ⟨[], rfl, rfl⟩
  | case2 => contradiction
  | case3 bits length r rs b bytes hb ih =>
    obtain ⟨trail, rfl, rfl⟩ := ih h
    exact ⟨b :: trail, rfl, by simp only [List.length_cons]; omega⟩
  | case4 => contradiction

/-- Nothing is lost: the trailing bytes of a sequence and the bytes behind it make up the bytes
behind its lead byte. -/
theorem append_rest_of_readScalar {b : UInt8} {scalar length : Nat} {bytes rest : List UInt8}
    (h : readScalar b bytes = .whole scalar length rest) :
    ∃ trail, bytes = trail ++ rest ∧ length = 1 + trail.length := by
  unfold readScalar at h
  split at h
  · contradiction
  · exact append_rest_of_readTrail h

/-- Reading makes progress, as no trailing byte comes back. -/
theorem length_rest_le_of_readScalar {b : UInt8} {scalar length : Nat} {bytes rest : List UInt8}
    (h : readScalar b bytes = .whole scalar length rest) : rest.length ≤ bytes.length := by
  obtain ⟨trail, rfl, -⟩ := append_rest_of_readScalar h
  simp

/-- A sequence is whole if its next byte is there, lies in the range for it, and the bytes behind
that one make the rest of the sequence whole. -/
theorem readTrail_cons_eq_whole_iff {bits length scalar length' : Nat} {r : ByteRange}
    {rs : List ByteRange} {bytes rest : List UInt8} :
    readTrail bits length (r :: rs) bytes = .whole scalar length' rest ↔
      ∃ b bytes', bytes = b :: bytes' ∧ r.contains b = true ∧
        readTrail (bits * 64 + (b.toNat - 0x80)) (length + 1) rs bytes' =
          .whole scalar length' rest := by
  cases bytes with
  | nil => simp [readTrail]
  | cons b bytes => grind [readTrail]

/-- What is read is a scalar value. The narrowed ranges leave out the surrogates and what is above
the last scalar value. -/
theorem isValidChar_of_readScalar {b : UInt8} {scalar length : Nat} {bytes rest : List UInt8}
    (h : readScalar b bytes = .whole scalar length rest) : scalar.isValidChar := by
  unfold readScalar Lead.ofByte? at h
  split at h
  · contradiction
  · rename_i lead hlead
    simp only [UInt8.le_iff_toNat_le, UInt8.lt_iff_toNat_lt, ← UInt8.toNat_inj,
      UInt8.reduceToNat] at hlead
    simp only [Nat.isValidChar]
    -- One case for each row of the table. In each the trailing bytes are bounded by their ranges,
    -- and so is the number that they are the digits of.
    repeat' split at hlead
    all_goals simp only [Option.some.injEq, reduceCtorEq] at hlead
    all_goals
      subst hlead
      simp only [readTrail_cons_eq_whole_iff, readTrail, Reading.whole.injEq, ByteRange.trailing,
        ByteRange.contains_iff, UInt8.reduceToNat] at h
      grind

/-- Decodes `bytes`, which stand at `index`, behind the chars of `decoded`, last one first. -/
def decodeFrom (index : Nat) (decoded : List Char) (bytes : List UInt8) :
    Except DecodeError (List Char) :=
  match bytes with
  | [] => .ok decoded.reverse
  | b :: bytes =>
    match _ : readScalar b bytes with
    | .whole scalar length rest => decodeFrom (index + length) (Char.ofNat scalar :: decoded) rest
    | .cutOff => .error (.incomplete index)
    | .broken length => .error (.invalid index length)
termination_by bytes.length
decreasing_by exact Nat.lt_succ_of_le (length_rest_le_of_readScalar ‹_›)

/-- The text that the bytes write. -/
def decode (bytes : List UInt8) : Except DecodeError (List Char) := decodeFrom 0 [] bytes

end LinePattern.Utf8
