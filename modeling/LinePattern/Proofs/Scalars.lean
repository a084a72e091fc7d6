import LinePattern.Text.Sequence

/-!
# Scalar values in bytes

Writing a char and reading it back, in both orders: reading what a char is written as gives its
scalar value (`readScalar_encodeChar`), and what is read is what the char is written as
(`encodeChar_of_readScalar`). Both go by the number of bytes.
-/

namespace LinePattern.Utf8

variable {v n : Nat} {b b₁ b₂ b₃ : UInt8} {bytes rest : List UInt8}

/-! ### Reading what is written -/

/-- A trailing byte that fits gives back its six bits. -/
theorem readTrail_ofNat_cons {r : ByteRange} (h_first : r.first.toNat ≤ v % 64 + 0x80)
    (h_last : v % 64 + 0x80 ≤ r.last.toNat) (bits length : Nat) (rs : List ByteRange)
    (rest : List UInt8) :
    readTrail bits length (r :: rs) (.ofNat (v % 64 + 0x80) :: rest) =
      readTrail (bits * 64 + v % 64) (length + 1) rs rest := by
  have h_byte : (UInt8.ofNat (v % 64 + 0x80)).toNat = v % 64 + 0x80 := by
    rw [UInt8.toNat_ofNat']
    omega
  rw [readTrail, if_pos, h_byte, Nat.add_sub_cancel]
  rw [ByteRange.contains_iff, h_byte]
  exact ⟨h_first, h_last⟩

/-- Six bits fit where the range is not narrowed. -/
theorem readTrail_trailing_cons (bits length v : Nat) (rs : List ByteRange) (rest : List UInt8) :
    readTrail bits length (.trailing :: rs) (.ofNat (v % 64 + 0x80) :: rest) =
      readTrail (bits * 64 + v % 64) (length + 1) rs rest := by
  have h_last : v % 64 ≤ 0x3F := Nat.le_of_lt_succ (Nat.mod_lt v (by decide))
  exact readTrail_ofNat_cons (Nat.le_add_left _ _) (Nat.add_le_add_right h_last 0x80) _ _ _ _

/-- The lead bytes of one byte: seven bits, and nothing behind them. -/
theorem ofByte?_one : ∀ n < 0x80, Lead.ofByte? (.ofNat n) = some ⟨n, []⟩ := by decide

/-- The lead bytes of two bytes. The first two of the 32 would write values that one byte holds. -/
theorem ofByte?_two : ∀ n < 32, 2 ≤ n →
    Lead.ofByte? (.ofNat (n + 0xC0)) = some ⟨n, [.trailing]⟩ := by
  decide

/-- The lead bytes of three bytes. The first and the one of the surrogates narrow the byte behind
them. -/
theorem ofByte?_three : ∀ n < 16, Lead.ofByte? (.ofNat (n + 0xE0)) =
    some ⟨n, [if n = 0 then ⟨0xA0, 0xBF⟩ else if n = 13 then ⟨0x80, 0x9F⟩ else .trailing,
      .trailing]⟩ := by
  decide

/-- The lead bytes of four bytes. The first and the last narrow the byte behind them. -/
theorem ofByte?_four : ∀ n < 5, Lead.ofByte? (.ofNat (n + 0xF0)) =
    some ⟨n, [if n = 0 then ⟨0x90, 0xBF⟩ else if n = 4 then ⟨0x80, 0x8F⟩ else .trailing,
      .trailing, .trailing]⟩ := by
  decide

/-- A value of seven bits is read back from its byte. -/
theorem readScalar_one (h : v ≤ 0x7F) : readScalar (.ofNat v) rest = .whole v 1 rest := by
  rw [readScalar, ofByte?_one v (Nat.lt_succ_of_le h)]
  rfl

/-- A value of eleven bits is read back from two bytes, as it is too great for one. -/
theorem readScalar_two (h : 0x80 ≤ v) (h' : v ≤ 0x7FF) :
    readScalar (.ofNat (v / 64 % 32 + 0xC0)) (.ofNat (v % 64 + 0x80) :: rest) =
      .whole v 2 rest := by
  -- Eleven bits leave five for the lead byte, so that nothing is cut off.
  have h_lead : v / 64 % 32 = v / 64 := by omega
  rw [h_lead, readScalar, ofByte?_two (v / 64) (by omega) (by omega)]
  dsimp only
  rw [readTrail_trailing_cons, readTrail, Nat.div_add_mod']

/-- The lead byte narrows the byte behind it where the value is no longer than two bytes hold, and
where it could be a surrogate. -/
theorem readScalar_three (h : 0x800 ≤ v) (h' : v ≤ 0xFFFF) (h_valid : v.isValidChar) :
    readScalar (.ofNat (v / 4096 % 16 + 0xE0))
      (.ofNat (v / 64 % 64 + 0x80) :: .ofNat (v % 64 + 0x80) :: rest) = .whole v 3 rest := by
  have h_lead : v / 4096 % 16 = v / 4096 := by omega
  have h_bits : (v / 4096 * 64 + v / 64 % 64) * 64 + v % 64 = v := by omega
  unfold Nat.isValidChar at h_valid
  rw [h_lead, readScalar, ofByte?_three (v / 4096) (by omega)]
  dsimp only
  rw [readTrail_ofNat_cons, readTrail_trailing_cons, readTrail, h_bits]
  -- The byte behind the lead byte lies between the two bounds that the lead byte sets.
  · split_ifs <;> simp only [ByteRange.trailing, UInt8.reduceToNat] <;> omega
  · split_ifs <;> simp only [ByteRange.trailing, UInt8.reduceToNat] <;> omega

/-- The lead byte narrows the byte behind it where the value is no longer than three bytes hold, and
where it could be above the last scalar value. -/
theorem readScalar_four (h : 0x10000 ≤ v) (h_valid : v.isValidChar) :
    readScalar (.ofNat (v / 262144 % 8 + 0xF0))
      (.ofNat (v / 4096 % 64 + 0x80) :: .ofNat (v / 64 % 64 + 0x80) :: .ofNat (v % 64 + 0x80) ::
        rest) = .whole v 4 rest := by
  unfold Nat.isValidChar at h_valid
  have h_lead : v / 262144 % 8 = v / 262144 := by omega
  -- The lead byte and three times six bits make up the value again.
  have h_bits : ((v / 262144 * 64 + v / 4096 % 64) * 64 + v / 64 % 64) * 64 + v % 64 = v := by omega
  rw [h_lead, readScalar, ofByte?_four (v / 262144) (by omega)]
  dsimp only
  rw [readTrail_ofNat_cons, readTrail_trailing_cons, readTrail_trailing_cons, readTrail, h_bits]
  · split_ifs <;> simp only [ByteRange.trailing, UInt8.reduceToNat] <;> omega
  · split_ifs <;> simp only [ByteRange.trailing, UInt8.reduceToNat] <;> omega

/-- What a char is written as is read back, whatever stands behind it. -/
theorem readScalar_encodeChar (c : Char) :
    ∃ b trail, String.utf8EncodeChar c = b :: trail ∧
      ∀ rest, readScalar b (trail ++ rest) = .whole c.toNat (1 + trail.length) rest := by
  -- The value decides how many bytes there are, and each number of bytes is a case.
  rw [String.utf8EncodeChar]
  split_ifs with h_one h_two h_three
  · exact ⟨_, _, rfl, fun rest => readScalar_one h_one⟩
  · exact ⟨_, _, rfl, fun rest => readScalar_two (Nat.lt_of_not_le h_one) h_two⟩
  · exact ⟨_, _, rfl, fun rest => readScalar_three (Nat.lt_of_not_le h_two) h_three c.valid⟩
  · exact ⟨_, _, rfl, fun rest => readScalar_four (Nat.lt_of_not_le h_three) c.valid⟩

/-! ### Writing what is read -/

/-- A scalar value is kept by the char that is made of it. -/
theorem toNat_val_ofNat (h : v.isValidChar) : (Char.ofNat v).val.toNat = v := by
  rw [Char.ofNat, dif_pos h]
  rfl

/-- A byte below the trailing ones is what its own value is written as. -/
theorem encodeChar_one (h : b.toNat ≤ 0x7F) : String.utf8EncodeChar (.ofNat b.toNat) = [b] := by
  have h_val : (Char.ofNat b.toNat).val.toNat = b.toNat := toNat_val_ofNat (.inl (by omega))
  rw [String.utf8EncodeChar]
  rw [h_val, if_pos h, UInt8.ofNat_toNat]

/-- A trailing byte is written from its six bits. -/
theorem ofNat_mod_eq (h : 0x80 ≤ b.toNat ∧ b.toNat ≤ 0xBF) (hv : v % 64 = b.toNat - 0x80) :
    .ofNat (v % 64 + 0x80) = b := by
  rw [hv, Nat.sub_add_cancel h.1, UInt8.ofNat_toNat]

/-- Two bytes that are in range are what their bits are written as: the first of them is great
enough that the bits do not fit into one byte. -/
theorem encodeChar_two (h : 0xC2 ≤ b.toNat ∧ b.toNat ≤ 0xDF)
    (h₁ : 0x80 ≤ b₁.toNat ∧ b₁.toNat ≤ 0xBF) :
    String.utf8EncodeChar (.ofNat ((b.toNat - 0xC0) * 64 + (b₁.toNat - 0x80))) = [b, b₁] := by
  generalize hv : (b.toNat - 0xC0) * 64 + (b₁.toNat - 0x80) = v
  -- What is above the six bits of the second byte is the bits of the first.
  have h_val : (Char.ofNat v).val.toNat = v := toNat_val_ofNat (.inl (by omega))
  have h_lead : v / 64 % 32 + 0xC0 = b.toNat := by omega
  rw [String.utf8EncodeChar]
  rw [h_val, if_neg (by omega), if_pos (by omega), h_lead, UInt8.ofNat_toNat,
    ofNat_mod_eq h₁ (by omega)]

/-- Three bytes that are in range are what their bits are written as, if these do not fit into two
bytes. The narrowed range of the second byte is what makes sure of that. -/
theorem encodeChar_three (h : 0xE0 ≤ b.toNat ∧ b.toNat ≤ 0xEF)
    (h₁ : 0x80 ≤ b₁.toNat ∧ b₁.toNat ≤ 0xBF) (h₂ : 0x80 ≤ b₂.toNat ∧ b₂.toNat ≤ 0xBF)
    (hv : ((b.toNat - 0xE0) * 64 + (b₁.toNat - 0x80)) * 64 + (b₂.toNat - 0x80) = v)
    (h_long : 0x800 ≤ v) (h_valid : v.isValidChar) :
    String.utf8EncodeChar (.ofNat v) = [b, b₁, b₂] := by
  have h_val : (Char.ofNat v).val.toNat = v := toNat_val_ofNat h_valid
  have h_lead : v / 4096 % 16 + 0xE0 = b.toNat := by omega
  rw [String.utf8EncodeChar, h_val, if_neg (by omega), if_neg (by omega), if_pos (by omega), h_lead,
    UInt8.ofNat_toNat, ofNat_mod_eq h₁ (by omega), ofNat_mod_eq h₂ (by omega)]

/-- The same for four bytes, and bits that do not fit into three. -/
theorem encodeChar_four (h : 0xF0 ≤ b.toNat ∧ b.toNat ≤ 0xF4)
    (h₁ : 0x80 ≤ b₁.toNat ∧ b₁.toNat ≤ 0xBF) (h₂ : 0x80 ≤ b₂.toNat ∧ b₂.toNat ≤ 0xBF)
    (h₃ : 0x80 ≤ b₃.toNat ∧ b₃.toNat ≤ 0xBF)
    (hv : (((b.toNat - 0xF0) * 64 + (b₁.toNat - 0x80)) * 64 + (b₂.toNat - 0x80)) * 64 +
      (b₃.toNat - 0x80) = v)
    (h_long : 0x10000 ≤ v) (h_valid : v.isValidChar) :
    String.utf8EncodeChar (.ofNat v) = [b, b₁, b₂, b₃] := by
  have h_val : (Char.ofNat v).val.toNat = v := toNat_val_ofNat h_valid
  have h_lead : v / 262144 % 8 + 0xF0 = b.toNat := by omega
  rw [String.utf8EncodeChar, h_val, if_neg (by omega), if_neg (by omega), if_neg (by omega), h_lead,
    UInt8.ofNat_toNat, ofNat_mod_eq h₁ (by omega), ofNat_mod_eq h₂ (by omega),
    ofNat_mod_eq h₃ (by omega)]

/-- What is read is what the char is written as. -/
theorem encodeChar_of_readScalar {scalar length : Nat}
    (h : readScalar b bytes = .whole scalar length rest) :
    b :: bytes = String.utf8EncodeChar (.ofNat scalar) ++ rest := by
  have h_valid : scalar.isValidChar := isValidChar_of_readScalar h
  unfold readScalar Lead.ofByte? at h
  split at h
  · contradiction
  · rename_i lead h_lead
    simp only [UInt8.le_iff_toNat_le, UInt8.lt_iff_toNat_lt, ← UInt8.toNat_inj,
      UInt8.reduceToNat] at h_lead
    -- Each row of the table is a case of its own, with the bounds that it sets to the bytes.
    repeat' split at h_lead
    all_goals simp only [Option.some.injEq, reduceCtorEq] at h_lead
    all_goals
      subst h_lead
      simp only [readTrail_cons_eq_whole_iff, readTrail, Reading.whole.injEq, ByteRange.trailing,
        ByteRange.contains_iff, UInt8.reduceToNat] at h
    · obtain ⟨rfl, -, rfl⟩ := h
      rw [encodeChar_one ‹_›]
      rfl
    · obtain ⟨b₁, _, rfl, h₁, rfl, -, rfl⟩ := h
      rw [encodeChar_two (by omega) h₁]
      rfl
    -- The kinds of one length differ only in how far the second byte is narrowed.
    iterate 3
      · obtain ⟨b₁, _, rfl, h₁, b₂, _, rfl, h₂, hv, -, rfl⟩ := h
        rw [encodeChar_three (by omega) (by omega) h₂ hv (by omega) h_valid]
        rfl
    iterate 3
      · obtain ⟨b₁, _, rfl, h₁, b₂, _, rfl, h₂, b₃, _, rfl, h₃, hv, -, rfl⟩ := h
        rw [encodeChar_four (by omega) (by omega) h₂ h₃ hv (by omega) h_valid]
        rfl

end LinePattern.Utf8
