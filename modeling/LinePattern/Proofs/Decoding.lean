import LinePattern.Proofs.Sequences
import Mathlib.Order.Bounds.Basic

/-!
# Decoding

Bytes are decoded exactly where they are well-formed. What a text is written as gives back the text
(`decode_eq_ok_iff`), and all other bytes are refused with the place and the kind of their fault
(`decode_eq_error_iff`).

Any bytes are those of a text followed by bytes with no sequence in front (`exists_encode_append`).
Decoding goes through the text char by char (`decodeFrom_encode_append`) and ends in front of the
rest. No longer part in front of the bytes is well-formed (`longestWellFormed_encode_append`), so
the fault is where it should be, and how reading ends there says which one it is.
-/

namespace LinePattern.Utf8

variable {bytes rest good good' bad bad' : List UInt8} {text text' : List Char}
  {e e' : DecodeError}

/-- No sequence stands in front of the bytes. -/
def Stuck (bytes : List UInt8) : Prop := ∀ w, w <+: bytes → ¬ IsSequence w

/-! ### Texts and their bytes -/

/-- The empty text has no bytes. -/
theorem encode_nil : encode [] = [] := rfl

/-- The bytes of a text are those of its chars, one behind the other. -/
theorem encode_cons (c : Char) (text : List Char) :
    encode (c :: text) = String.utf8EncodeChar c ++ encode text := List.flatMap_cons

/-- The well-formed bytes are those of the texts. -/
theorem wellFormed_iff : WellFormed bytes ↔ ∃ text, bytes = encode text := by
  constructor
  · -- Each sequence is that of a char.
    rintro ⟨ws, rfl, h_ws⟩
    induction ws with
    | nil => exact ⟨[], rfl⟩
    | cons w ws ih =>
      obtain ⟨c, rfl⟩ := isSequence_iff.mp (h_ws w List.mem_cons_self)
      obtain ⟨text, h_text⟩ := ih fun w' hw' => h_ws w' (List.mem_cons_of_mem _ hw')
      exact ⟨c :: text, by rw [List.flatten_cons, h_text, encode_cons]⟩
  · rintro ⟨text, rfl⟩
    refine ⟨text.map String.utf8EncodeChar, List.flatMap_def, fun w hw => ?_⟩
    obtain ⟨c, -, rfl⟩ := List.mem_map.mp hw
    exact isSequence_iff.mpr ⟨c, rfl⟩

/-- The sequence in front tells the char, whatever stands behind it. -/
theorem eq_of_encodeChar_append {c c' : Char}
    (h : String.utf8EncodeChar c ++ rest = String.utf8EncodeChar c' ++ bytes) : c = c' := by
  obtain ⟨b, trail, h_write, h_read⟩ := readScalar_encodeChar c
  obtain ⟨b', trail', h_write', h_read'⟩ := readScalar_encodeChar c'
  rw [h_write, h_write', List.cons_append, List.cons_append, List.cons.injEq] at h
  obtain ⟨rfl, h_trail⟩ := h
  -- Both chars are what is read of the same bytes.
  have h_whole := h_read rest
  rw [h_trail, h_read', Reading.whole.injEq] at h_whole
  exact Char.toNat_inj.mp h_whole.1.symm

/-- Any bytes are those of a text, up to where no sequence is in front. -/
theorem exists_encode_append (bytes : List UInt8) :
    ∃ text rest, bytes = encode text ++ rest ∧ Stuck rest := by
  by_cases h : Stuck bytes
  · exact ⟨[], bytes, rfl, h⟩
  · rw [Stuck] at h
    push Not at h
    obtain ⟨w, ⟨rest, rfl⟩, h_seq⟩ := h
    obtain ⟨c, rfl⟩ := isSequence_iff.mp h_seq
    obtain ⟨text, rest', rfl, h_stuck⟩ := exists_encode_append rest
    exact ⟨c :: text, rest', by rw [encode_cons, List.append_assoc], h_stuck⟩
termination_by bytes.length
decreasing_by
  subst_vars
  rw [List.length_append]
  exact Nat.lt_add_of_pos_left (List.length_pos_of_ne_nil String.utf8EncodeChar_ne_nil)

/-- A text whose bytes stand in front of those of `text` and a rest without a sequence is itself in
front of `text`. -/
theorem prefix_of_encode_prefix (h_stuck : Stuck rest) (h : encode text' <+: encode text ++ rest) :
    text' <+: text := by
  induction text' generalizing text with
  | nil => exact List.nil_prefix
  | cons c' text' ih =>
    rw [encode_cons] at h
    cases text with
    | nil =>
      -- The first char of the longer text would be a sequence in front of the rest.
      rw [encode_nil, List.nil_append] at h
      exact absurd (isSequence_iff.mpr ⟨c', rfl⟩)
        (h_stuck _ ((List.prefix_append _ _).trans h))
    | cons c text =>
      rw [encode_cons, List.append_assoc] at h
      obtain ⟨u, hu⟩ := h
      rw [List.append_assoc] at hu
      obtain rfl : c' = c := eq_of_encodeChar_append hu
      have h_tail : encode text' <+: encode text ++ rest := ⟨u, List.append_cancel_left hu⟩
      exact List.cons_prefix_cons.mpr ⟨rfl, ih h_tail⟩

/-- Where no sequence is in front of the rest, the text in front of it is as long as can be. -/
theorem longestWellFormed_encode_append (text : List Char) (h_stuck : Stuck rest) :
    LongestWellFormed (encode text ++ rest) (encode text) rest where
  eq_append := rfl
  wellFormed := wellFormed_iff.mpr ⟨text, rfl⟩
  length_le := by
    intro v hv h_wellFormed
    -- A well-formed part in front is a text, which is in front of the text that is there.
    obtain ⟨text', rfl⟩ := wellFormed_iff.mp h_wellFormed
    obtain ⟨text'', rfl⟩ := prefix_of_encode_prefix h_stuck hv
    rw [encode, encode, List.flatMap_append, List.length_append]
    exact Nat.le_add_right _ _

/-! ### Decoding a text -/

/-- Decoding takes the bytes of a char at a time. -/
theorem decodeFrom_encodeChar_append (index : Nat) (decoded : List Char) (c : Char)
    (rest : List UInt8) :
    decodeFrom index decoded (String.utf8EncodeChar c ++ rest) =
      decodeFrom (index + (String.utf8EncodeChar c).length) (c :: decoded) rest := by
  obtain ⟨b, trail, h_write, h_read⟩ := readScalar_encodeChar c
  rw [h_write, List.cons_append, decodeFrom]
  split
  · next h_whole =>
    rw [h_read, Reading.whole.injEq] at h_whole
    obtain ⟨rfl, rfl, rfl⟩ := h_whole
    rw [Char.ofNat_toNat, List.length_cons, Nat.add_comm 1]
  -- The bytes of a char are read whole, so reading does not end otherwise.
  · next h_cutOff =>
    rw [h_read] at h_cutOff
    contradiction
  · next h_broken =>
    rw [h_read] at h_broken
    contradiction

/-- Decoding goes through a text, whatever stands behind it. -/
theorem decodeFrom_encode_append (index : Nat) (decoded text : List Char) (rest : List UInt8) :
    decodeFrom index decoded (encode text ++ rest) =
      decodeFrom (index + (encode text).length) (text.reverse ++ decoded) rest := by
  induction text generalizing index decoded with
  | nil => rfl
  | cons c text ih =>
    have h_index : index + (String.utf8EncodeChar c).length + (encode text).length =
        index + (encode (c :: text)).length := by
      rw [encode_cons, List.length_append, Nat.add_assoc]
    calc decodeFrom index decoded (encode (c :: text) ++ rest)
        = decodeFrom index decoded (String.utf8EncodeChar c ++ (encode text ++ rest)) := by
          rw [encode_cons, List.append_assoc]
      _ = decodeFrom (index + (String.utf8EncodeChar c).length) (c :: decoded)
            (encode text ++ rest) := decodeFrom_encodeChar_append index decoded c _
      _ = decodeFrom (index + (String.utf8EncodeChar c).length + (encode text).length)
            (text.reverse ++ c :: decoded) rest := ih _ _
      _ = decodeFrom (index + (encode (c :: text)).length)
            ((c :: text).reverse ++ decoded) rest := by
          rw [h_index, List.reverse_cons, List.append_assoc, List.singleton_append]

/-- Decoding is undoing what writes a text in bytes. -/
theorem decode_encode (text : List Char) : decode (encode text) = .ok text := by
  have h_run := decodeFrom_encode_append 0 [] text []
  rw [List.append_nil, decodeFrom, List.append_nil, List.reverse_reverse] at h_run
  exact h_run

/-- Behind a text, where bytes are left and no sequence is in front of them, decoding fails, and the
error is true of the bytes. -/
theorem decode_encode_append_of_stuck (text : List Char) (h_stuck : Stuck rest)
    (h_ne : rest ≠ []) :
    ∃ e, decode (encode text ++ rest) = .error e ∧ Malformed (encode text ++ rest) e ∧
      ∀ index length, e = .invalid index length → 1 ≤ length ∧ length ≤ 3 := by
  have h_longest := longestWellFormed_encode_append text h_stuck
  have h_run : decode (encode text ++ rest) =
      decodeFrom (0 + (encode text).length) (text.reverse ++ []) rest :=
    decodeFrom_encode_append 0 [] text rest
  rw [Nat.zero_add] at h_run
  rw [h_run]
  obtain ⟨b, rest, rfl⟩ := List.exists_cons_of_ne_nil h_ne
  rw [decodeFrom]
  split
  · next h_whole =>
    -- What is read whole is a sequence, and none is in front of the rest.
    exact absurd (isSequence_iff.mpr ⟨_, rfl⟩)
      (h_stuck _ ⟨_, (encodeChar_of_readScalar h_whole).symm⟩)
  · next h_cutOff =>
    have h_starts : StartsSequence (b :: rest) := startsSequence_cons_iff.mpr h_cutOff
    exact ⟨_, rfl, .incomplete h_longest h_ne h_starts, fun _ _ h => DecodeError.noConfusion h⟩
  · next n h_broken =>
    obtain ⟨m, h_three, rfl, h_greatest⟩ := isGreatest_of_readScalar_eq_broken h_broken
    have h_not : ¬ StartsSequence (b :: rest) := by
      rw [startsSequence_cons_iff, h_broken]
      exact Reading.noConfusion
    refine ⟨_, rfl, .invalid h_longest h_not h_greatest, ?_⟩
    intro index length h
    obtain ⟨-, rfl⟩ := DecodeError.invalid.inj h
    exact ⟨Nat.le_max_left 1 m, Nat.max_le.mpr ⟨by decide, h_three⟩⟩

/-- **What is decoded.** A text is what its own bytes decode to, and no others do. -/
theorem decode_eq_ok_iff : decode bytes = .ok text ↔ bytes = encode text := by
  constructor
  · -- The bytes are those of a text in front of bytes that are stuck, of which there are none.
    intro h
    obtain ⟨text', rest, rfl, h_stuck⟩ := exists_encode_append bytes
    by_cases h_rest : rest = []
    · rw [h_rest, List.append_nil, decode_encode, Except.ok.injEq] at h
      rw [h_rest, List.append_nil, h]
    · obtain ⟨e, h_error, -⟩ := decode_encode_append_of_stuck text' h_stuck h_rest
      rw [h_error] at h
      contradiction
  · rintro rfl
    exact decode_encode text

/-- No two texts have the same bytes, since decoding tells which text they are of. -/
theorem eq_of_encode_eq (h : encode text = encode text') : text = text' := by
  have h_decode : decode (encode text) = .ok text' := decode_eq_ok_iff.mpr h
  rwa [decode_encode, Except.ok.injEq] at h_decode

/-! ### The error -/

/-- Bytes have one longest well-formed part. -/
theorem LongestWellFormed.eq (h : LongestWellFormed bytes good bad)
    (h' : LongestWellFormed bytes good' bad') : good = good' ∧ bad = bad' := by
  have h_good : good <+: bytes := ⟨bad, h.eq_append.symm⟩
  have h_good' : good' <+: bytes := ⟨bad', h'.eq_append.symm⟩
  have h_length : good.length = good'.length :=
    Nat.le_antisymm (h'.length_le good h_good h.wellFormed)
      (h.length_le good' h_good' h'.wellFormed)
  have h_append : good ++ bad = good' ++ bad' := h.eq_append.symm.trans h'.eq_append
  exact List.append_inj h_append h_length

/-- Bytes are at fault in one way only. -/
theorem Malformed.eq (h : Malformed bytes e) (h' : Malformed bytes e') : e = e' := by
  -- Both kinds say where the bytes go wrong and whether a sequence starts there, and that is one
  -- place and one answer.
  cases h with
  | incomplete longest ne_nil starts =>
    cases h' with
    | incomplete longest' => rw [(longest.eq longest').1]
    | invalid longest' not_starts' =>
      rw [(longest.eq longest').2] at starts
      exact absurd starts not_starts'
  | invalid longest not_starts greatest =>
    cases h' with
    | incomplete longest' ne_nil' starts' =>
      rw [← (longest.eq longest').2] at starts'
      exact absurd starts' not_starts
    | invalid longest' not_starts' greatest' =>
      obtain ⟨rfl, rfl⟩ := longest.eq longest'
      rw [IsGreatest.unique greatest greatest']

/-- Malformed bytes are those of no text. -/
theorem Malformed.ne_encode (h : Malformed bytes e) (text : List Char) : bytes ≠ encode text := by
  rintro rfl
  -- The bytes of a text are well-formed up to their end, where there is nothing to be at fault.
  have h_all : LongestWellFormed (encode text) (encode text) [] := by
    have h_stuck : Stuck [] := by
      intro w hw h_seq
      obtain ⟨c, rfl⟩ := isSequence_iff.mp h_seq
      exact String.utf8EncodeChar_ne_nil (List.prefix_nil.mp hw)
    have h_longest := longestWellFormed_encode_append text h_stuck
    rwa [List.append_nil] at h_longest
  cases h with
  | incomplete longest ne_nil => exact ne_nil (longest.eq h_all).2
  | invalid longest not_starts =>
    rw [(longest.eq h_all).2] at not_starts
    exact not_starts startsSequence_nil

/-- An error of decoding is true of the bytes, and no more than three of them start a sequence. -/
theorem malformed_of_decode_eq_error (h : decode bytes = .error e) :
    Malformed bytes e ∧ ∀ index length, e = .invalid index length → 1 ≤ length ∧ length ≤ 3 := by
  obtain ⟨text, rest, rfl, h_stuck⟩ := exists_encode_append bytes
  by_cases h_rest : rest = []
  · rw [h_rest, List.append_nil, decode_encode] at h
    contradiction
  · obtain ⟨e', h_error, h_malformed⟩ := decode_encode_append_of_stuck text h_stuck h_rest
    rw [h_error, Except.error.injEq] at h
    rwa [h] at h_malformed

/-- **What is refused.** Decoding fails with an error exactly where the error is true of the
bytes. -/
theorem decode_eq_error_iff : decode bytes = .error e ↔ Malformed bytes e := by
  constructor
  · intro h
    exact (malformed_of_decode_eq_error h).1
  · intro h
    cases h_decode : decode bytes with
    | ok text => exact absurd (decode_eq_ok_iff.mp h_decode) (h.ne_encode text)
    -- The error that comes out is true of the bytes as well, and only one is.
    | error e' => rw [h.eq (malformed_of_decode_eq_error h_decode).1]

end LinePattern.Utf8
