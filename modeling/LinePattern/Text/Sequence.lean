import LinePattern.Text.Utf8
import Mathlib.Data.List.Forall2
import Mathlib.Order.Bounds.Defs

/-!
# Well-formed bytes

What UTF-8 is, said without decoding: the sequences of the table of the Unicode standard, one behind
the other. Bytes that are no UTF-8 are at fault behind the longest part in front that is, and the
fault is told by how much of a sequence stands there.

* `table`, `IsSequence`: the well-formed sequences.
* `encode`, `WellFormed`: the bytes of a text, and the bytes that are made of sequences.
* `StartsSequence`: the bytes of a sequence that is not whole.
* `Malformed`: the bytes that are no UTF-8, and where and why they are not.
-/

namespace LinePattern.Utf8

/-- The bytes of a text. -/
def encode (text : List Char) : List UInt8 := text.flatMap String.utf8EncodeChar

/-- The well-formed sequences: a row for each kind, and in the row a range for each byte. -/
def table : List (List ByteRange) :=
  [[⟨0x00, 0x7F⟩],
    [⟨0xC2, 0xDF⟩, ⟨0x80, 0xBF⟩],
    [⟨0xE0, 0xE0⟩, ⟨0xA0, 0xBF⟩, ⟨0x80, 0xBF⟩],
    [⟨0xE1, 0xEC⟩, ⟨0x80, 0xBF⟩, ⟨0x80, 0xBF⟩],
    [⟨0xED, 0xED⟩, ⟨0x80, 0x9F⟩, ⟨0x80, 0xBF⟩],
    [⟨0xEE, 0xEF⟩, ⟨0x80, 0xBF⟩, ⟨0x80, 0xBF⟩],
    [⟨0xF0, 0xF0⟩, ⟨0x90, 0xBF⟩, ⟨0x80, 0xBF⟩, ⟨0x80, 0xBF⟩],
    [⟨0xF1, 0xF3⟩, ⟨0x80, 0xBF⟩, ⟨0x80, 0xBF⟩, ⟨0x80, 0xBF⟩],
    [⟨0xF4, 0xF4⟩, ⟨0x80, 0x8F⟩, ⟨0x80, 0xBF⟩, ⟨0x80, 0xBF⟩]]

/-- There are as many bytes as ranges, and each byte lies in its range. -/
def Fits (ranges : List ByteRange) (bytes : List UInt8) : Prop :=
  List.Forall₂ (fun r b => r.contains b = true) ranges bytes

/-- The bytes are a sequence of the table. -/
def IsSequence (w : List UInt8) : Prop := ∃ row ∈ table, Fits row w

/-- The bytes are sequences, one behind the other. -/
def WellFormed (bytes : List UInt8) : Prop :=
  ∃ ws : List (List UInt8), bytes = ws.flatten ∧ ∀ w ∈ ws, IsSequence w

/-- The bytes start a sequence and are not the whole of it. -/
def StartsSequence (v : List UInt8) : Prop := ∃ w, IsSequence w ∧ v <+: w ∧ v ≠ w

/-- The longest well-formed part in front of the bytes is `good`, and `bad` is what is behind it. -/
structure LongestWellFormed (bytes good bad : List UInt8) : Prop where
  /-- The two parts make up the bytes. -/
  eq_append : bytes = good ++ bad
  /-- The first part is well-formed. -/
  wellFormed : WellFormed good
  /-- No longer part is. -/
  length_le : ∀ v, v <+: bytes → WellFormed v → v.length ≤ good.length

/-- The bytes are no UTF-8. They go wrong behind their longest well-formed part: either the bytes
end there inside a sequence, or what stands there starts no sequence beyond its first `n` bytes. At
least one byte is wrong. -/
inductive Malformed (bytes : List UInt8) : DecodeError → Prop where
  /-- The bytes end inside a sequence. -/
  | incomplete {good bad : List UInt8} (longest : LongestWellFormed bytes good bad)
    (ne_nil : bad ≠ []) (starts : StartsSequence bad) : Malformed bytes (.incomplete good.length)
  /-- The bytes do not go on as a sequence does. -/
  | invalid {good bad : List UInt8} (longest : LongestWellFormed bytes good bad)
    (not_starts : ¬ StartsSequence bad) {n : Nat}
    (greatest : IsGreatest {n | ∃ v, v <+: bad ∧ StartsSequence v ∧ v.length = n} n) :
    Malformed bytes (.invalid good.length (max 1 n))

end LinePattern.Utf8
