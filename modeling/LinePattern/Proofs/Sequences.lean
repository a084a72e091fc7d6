import LinePattern.Proofs.Scalars

/-!
# Reading a sequence

`readScalar` against the table of well-formed sequences. Bytes start with a sequence of the table,
or they are the start of one, or they leave the table at some byte; reading tells the three apart
and says where the table is left.

The lead byte picks the row (`isSequence_cons_iff`), and the rest of the row is read range by range:
`readTrail_append` goes over bytes that fit, and `tells_readTrail` is what can be said of the bytes
from how reading ends.

Main statements:

* `isSequence_iff`: the sequences are what the chars are written as.
* `startsSequence_cons_iff`: reading is cut off where a sequence is started and not whole.
* `isGreatest_of_readScalar_eq_broken`: elsewhere it says how much of a sequence there is.
-/

namespace LinePattern.Utf8

variable {r : ByteRange} {rs rs' ranges : List ByteRange} {b : UInt8}
  {v trail bytes rest : List UInt8} {bits length : Nat}

/-! ### The table and the lead bytes -/

/-- The lead byte picks the row of the table. -/
theorem ofByte?_of_mem_table (h : r :: rs ∈ table) (hb : r.contains b = true) :
    ∃ bits, Lead.ofByte? b = some ⟨bits, rs⟩ := by
  simp only [table, List.mem_cons, List.cons.injEq, List.not_mem_nil, or_false] at h
  rw [ByteRange.contains_iff] at hb
  rcases h with ⟨rfl, rfl⟩ | ⟨rfl, rfl⟩ | ⟨rfl, rfl⟩ | ⟨rfl, rfl⟩ | ⟨rfl, rfl⟩ | ⟨rfl, rfl⟩ |
    ⟨rfl, rfl⟩ | ⟨rfl, rfl⟩ | ⟨rfl, rfl⟩
  -- Each row fixes how the comparisons of its lead byte come out.
  all_goals
    simp only [UInt8.reduceToNat] at hb
    simp only [Lead.ofByte?, UInt8.le_iff_toNat_le, UInt8.lt_iff_toNat_lt, ← UInt8.toNat_inj,
      UInt8.reduceToNat]
    simp (disch := omega) only [if_pos, if_neg]
    exact ⟨_, rfl⟩

/-- A byte that leads no row of the table is no lead byte. -/
theorem ofByte?_eq_none (h : ∀ r rs, r :: rs ∈ table → r.contains b ≠ true) :
    Lead.ofByte? b = none := by
  simp only [table, List.mem_cons, List.cons.injEq, List.not_mem_nil, or_false, or_imp, and_imp,
    forall_and, forall_eq, forall_eq_apply_imp_iff, ne_eq, ByteRange.contains_iff,
    UInt8.reduceToNat] at h
  -- Missing all ranges of lead bytes, the byte comes to none of the rows.
  simp only [Lead.ofByte?, UInt8.le_iff_toNat_le, UInt8.lt_iff_toNat_lt, ← UInt8.toNat_inj,
    UInt8.reduceToNat]
  simp (disch := omega) only [if_neg, ite_self]

/-- Each lead byte leads a row of the table, and the ranges behind it are those of the row. -/
theorem exists_mem_table_of_ofByte? {lead : Lead} (h : Lead.ofByte? b = some lead) :
    ∃ r, r :: lead.trail ∈ table ∧ r.contains b = true := by
  by_contra h_none
  have h_all : ∀ r rs, r :: rs ∈ table → r.contains b ≠ true := by
    intro r rs h_mem hb
    obtain ⟨bits, h_lead⟩ := ofByte?_of_mem_table h_mem hb
    obtain rfl : lead = ⟨bits, rs⟩ := Option.some.inj (h.symm.trans h_lead)
    exact h_none ⟨r, h_mem, hb⟩
  rw [ofByte?_eq_none h_all] at h
  contradiction

/-! ### Trailing bytes -/

/-- Bytes that fit are read, and their bits put behind those in front. -/
theorem readTrail_append (h : Fits rs trail) (bits length : Nat) :
    ∃ bits', ∀ ranges rest, readTrail bits length (rs ++ ranges) (trail ++ rest) =
      readTrail bits' (length + trail.length) ranges rest := by
  induction h generalizing bits length with
  | nil => exact ⟨bits, fun ranges rest => rfl⟩
  | @cons r b rs trail hb _ ih =>
    obtain ⟨bits', h_read⟩ := ih (bits * 64 + (b.toNat - 0x80)) (length + 1)
    refine ⟨bits', fun ranges rest => ?_⟩
    rw [List.cons_append, List.cons_append, readTrail, if_pos hb, h_read, List.length_cons,
      Nat.add_right_comm, Nat.add_assoc]

/-- Bytes that fit all ranges are read whole. -/
theorem readTrail_of_fits (h : Fits ranges trail) (bits length : Nat) :
    ∃ scalar, ∀ rest, readTrail bits length ranges (trail ++ rest) =
      .whole scalar (length + trail.length) rest := by
  obtain ⟨bits', h_read⟩ := readTrail_append h bits length
  refine ⟨bits', fun rest => ?_⟩
  have h_nil := h_read [] rest
  rwa [List.append_nil] at h_nil

/-- Reading breaks off at the first byte that does not fit, and counts those in front of it. -/
theorem readTrail_of_misfit {b : UInt8} (h : Fits rs trail) (hb : r.contains b ≠ true)
    (bits length : Nat) (rs' : List ByteRange) (rest : List UInt8) :
    readTrail bits length (rs ++ r :: rs') (trail ++ b :: rest) =
      .broken (length + trail.length) := by
  obtain ⟨bits', h_read⟩ := readTrail_append h bits length
  rw [h_read, readTrail, if_neg hb]

/-- How the bytes fit the ranges, where reading them behind `length` others ends in this way: there
is a byte for each range, or they end too soon, or a byte misses its range. -/
def Reading.Tells (ranges : List ByteRange) (bytes : List UInt8) (length : Nat) : Reading → Prop
  | .whole _ _ rest => ∃ trail, bytes = trail ++ rest ∧ Fits ranges trail
  | .cutOff => ∃ rs r rs', ranges = rs ++ r :: rs' ∧ Fits rs bytes
  | .broken n => ∃ rs r rs' trail b rest, ranges = rs ++ r :: rs' ∧ bytes = trail ++ b :: rest ∧
    Fits rs trail ∧ r.contains b ≠ true ∧ n = length + trail.length

/-- A byte in front that lies in its range makes no difference to how reading ends. -/
theorem Reading.Tells.cons {reading : Reading} (h : reading.Tells ranges bytes (length + 1))
    (hb : r.contains b = true) : reading.Tells (r :: ranges) (b :: bytes) length := by
  cases reading with
  | whole scalar length' rest =>
    obtain ⟨trail, rfl, h_fits⟩ := h
    exact ⟨b :: trail, rfl, .cons hb h_fits⟩
  | cutOff =>
    obtain ⟨rs, r', rs', rfl, h_fits⟩ := h
    exact ⟨r :: rs, r', rs', rfl, .cons hb h_fits⟩
  | broken n =>
    obtain ⟨rs, r', rs', trail, b', rest, rfl, rfl, h_fits, hb', rfl⟩ := h
    refine ⟨r :: rs, r', rs', b :: trail, b', rest, rfl, rfl, .cons hb h_fits, hb', ?_⟩
    rw [List.length_cons, Nat.add_right_comm, Nat.add_assoc]

/-- Reading tells how the bytes fit the ranges. -/
theorem tells_readTrail (bits length : Nat) (ranges : List ByteRange) (bytes : List UInt8) :
    (readTrail bits length ranges bytes).Tells ranges bytes length := by
  induction ranges generalizing bits length bytes with
  | nil => exact ⟨[], rfl, .nil⟩
  | cons r ranges ih =>
    cases bytes with
    | nil => exact ⟨[], r, ranges, rfl, .nil⟩
    | cons b bytes =>
      rw [readTrail]
      split
      · next hb => exact (ih _ _ _).cons hb
      · next hb => exact ⟨[], r, ranges, [], b, bytes, rfl, rfl, .nil, hb, rfl⟩

/-- Reading is cut off if the bytes fit the first ranges, and there are more ranges than bytes. -/
theorem readTrail_eq_cutOff_iff :
    readTrail bits length ranges bytes = .cutOff ↔
      ∃ rs r rs', ranges = rs ++ r :: rs' ∧ Fits rs bytes := by
  constructor
  · -- What reading tells where it is cut off is what is to be shown.
    intro h
    have h_tells := tells_readTrail bits length ranges bytes
    rwa [h] at h_tells
  · rintro ⟨rs, r, rs', rfl, h_fits⟩
    obtain ⟨bits', h_read⟩ := readTrail_append h_fits bits length
    have h_end := h_read (r :: rs') []
    rwa [List.append_nil] at h_end

/-! ### The bytes of one sequence -/

/-- A sequence is a lead byte and bytes that fit the ranges which it sets. -/
theorem isSequence_cons_iff :
    IsSequence (b :: trail) ↔ ∃ lead, Lead.ofByte? b = some lead ∧ Fits lead.trail trail := by
  constructor
  · rintro ⟨row, h_mem, h_fits⟩
    cases h_fits with
    | @cons r _ rs _ hb h_trail =>
      obtain ⟨bits, h_lead⟩ := ofByte?_of_mem_table h_mem hb
      exact ⟨⟨bits, rs⟩, h_lead, h_trail⟩
  · rintro ⟨lead, h_lead, h_trail⟩
    obtain ⟨r, h_mem, hb⟩ := exists_mem_table_of_ofByte? h_lead
    exact ⟨r :: lead.trail, h_mem, .cons hb h_trail⟩

/-- The sequences are what the chars are written as. -/
theorem isSequence_iff {w : List UInt8} : IsSequence w ↔ ∃ c, w = String.utf8EncodeChar c := by
  constructor
  · -- A sequence is read whole, and what is read whole is what a char is written as.
    intro h
    cases w with
    | nil =>
      obtain ⟨row, h_row, h_fits⟩ := h
      cases h_fits
      exact absurd h_row (by decide)
    | cons b trail =>
      obtain ⟨lead, h_lead, h_trail⟩ := isSequence_cons_iff.mp h
      obtain ⟨scalar, h_read⟩ := readTrail_of_fits h_trail lead.bits 1
      have h_whole : readScalar b (trail ++ []) = .whole scalar (1 + trail.length) [] := by
        rw [readScalar, h_lead]
        exact h_read []
      refine ⟨.ofNat scalar, ?_⟩
      rw [← List.append_nil (String.utf8EncodeChar _), ← encodeChar_of_readScalar h_whole,
        List.append_nil]
  · -- What a char is written as is read back, so its bytes fit the ranges of its lead byte.
    rintro ⟨c, rfl⟩
    obtain ⟨b, trail, h_write, h_read⟩ := readScalar_encodeChar c
    have h_whole := h_read []
    rw [List.append_nil, readScalar] at h_whole
    rw [h_write]
    split at h_whole
    · contradiction
    · next lead h_lead =>
      have h_tells := tells_readTrail lead.bits 1 lead.trail trail
      rw [h_whole] at h_tells
      obtain ⟨trail', rfl, h_trail⟩ := h_tells
      rw [List.append_nil]
      exact isSequence_cons_iff.mpr ⟨lead, h_lead, h_trail⟩

/-! ### The start of a sequence -/

/-- Bytes that fit can be put behind others that do. -/
theorem Fits.append {u : List UInt8} (h : Fits rs v) (h' : Fits rs' u) :
    Fits (rs ++ rs') (v ++ u) := List.rel_append h h'

/-- Where bytes fit, their first ones fit the first ranges, and the others the other ranges. -/
theorem Fits.exists_append {u : List UInt8} (h : Fits ranges (v ++ u)) :
    ∃ rs rs', ranges = rs ++ rs' ∧ Fits rs v ∧ Fits rs' u :=
  ⟨_, _, (List.take_append_drop v.length ranges).symm, List.forall₂_take_append _ _ _ h,
    List.forall₂_drop_append _ _ _ h⟩

/-- No range of the table is empty, so there are bytes that fit. -/
theorem fits_map_first {row : List ByteRange} (h_row : row ∈ table) (h : ranges ⊆ row) :
    Fits ranges (ranges.map ByteRange.first) := by
  have h_first : ∀ row ∈ table, ∀ r ∈ row, r.contains r.first = true := by decide
  rw [Fits, List.forall₂_map_right_iff, List.forall₂_same]
  exact fun r hr => h_first row h_row r (h hr)

/-- A sequence is started and not whole where reading is cut off. -/
theorem startsSequence_cons_iff : StartsSequence (b :: v) ↔ readScalar b v = .cutOff := by
  constructor
  · -- The sequence has bytes behind those that are there, and so there are ranges left for them.
    rintro ⟨_, h_seq, ⟨u, rfl⟩, h_ne⟩
    rw [List.cons_append] at h_seq
    obtain ⟨lead, h_lead, h_fits⟩ := isSequence_cons_iff.mp h_seq
    obtain ⟨rs, rs', h_trail, h_front, h_back⟩ := h_fits.exists_append
    rw [readScalar, h_lead]
    apply readTrail_eq_cutOff_iff.mpr
    cases h_back with
    | nil => exact absurd (List.append_nil _).symm h_ne
    | @cons r _ rs' _ _ _ => exact ⟨rs, r, rs', h_trail, h_front⟩
  · intro h
    rw [readScalar] at h
    split at h
    · contradiction
    · next lead h_lead =>
      -- The ranges that are left are fitted by their least bytes.
      obtain ⟨rs, r, rs', h_trail, h_front⟩ := readTrail_eq_cutOff_iff.mp h
      obtain ⟨r₀, h_row, hb⟩ := exists_mem_table_of_ofByte? h_lead
      rw [h_trail] at h_row
      have h_back : Fits (r :: rs') ((r :: rs').map ByteRange.first) :=
        fits_map_first h_row (List.subset_cons_of_subset r₀ (List.subset_append_right rs _))
      have h_seq : IsSequence (b :: (v ++ (r :: rs').map ByteRange.first)) :=
        ⟨_, h_row, .cons hb (h_front.append h_back)⟩
      exact ⟨_, h_seq, List.prefix_append (b :: v) _, by simp⟩

/-- The front of a started sequence starts the same sequence. -/
theorem StartsSequence.of_prefix {u : List UInt8} (h : StartsSequence v) (hu : u <+: v) :
    StartsSequence u := by
  obtain ⟨w, h_seq, h_front, h_ne⟩ := h
  refine ⟨w, h_seq, hu.trans h_front, ?_⟩
  rintro rfl
  exact h_ne (h_front.eq_of_length_le hu.length_le)

/-- Where there is no byte yet a sequence is started as well. -/
theorem startsSequence_nil : StartsSequence [] :=
  ⟨[0], isSequence_cons_iff.mpr ⟨⟨0, []⟩, rfl, .nil⟩, List.nil_prefix, by decide⟩

/-- No lead byte asks for more than three others. -/
theorem length_trail_le {lead : Lead} (h : Lead.ofByte? b = some lead) : lead.trail.length ≤ 3 := by
  obtain ⟨r, h_row, -⟩ := exists_mem_table_of_ofByte? h
  have h_table : ∀ row ∈ table, row.length ≤ 4 := by decide
  exact Nat.le_of_succ_le_succ (h_table _ h_row)

/-- Where reading breaks off, it says how much of a sequence is there. A byte that leads none counts
as well. -/
theorem isGreatest_of_readScalar_eq_broken {n : Nat} (h : readScalar b bytes = .broken n) :
    ∃ m ≤ 3, n = max 1 m ∧
      IsGreatest {k | ∃ v, v <+: b :: bytes ∧ StartsSequence v ∧ v.length = k} m := by
  rw [readScalar] at h
  split at h
  · next h_lead =>
    -- No sequence starts with the byte, so nothing but the empty prefix starts one.
    cases h
    refine ⟨0, Nat.zero_le 3, rfl, ⟨[], List.nil_prefix, startsSequence_nil, rfl⟩, ?_⟩
    rintro _ ⟨v, hv, h_starts, rfl⟩
    cases v with
    | nil => exact Nat.le_refl 0
    | cons b' v =>
      obtain ⟨rfl, -⟩ := List.cons_prefix_cons.mp hv
      rw [startsSequence_cons_iff, readScalar, h_lead] at h_starts
      contradiction
  · next lead h_lead =>
    -- The lead byte and the bytes that fit start a sequence, up to the byte that does not.
    have h_tells := tells_readTrail lead.bits 1 lead.trail bytes
    rw [h] at h_tells
    obtain ⟨rs, r, rs', trail, b', rest, h_trail, rfl, h_fits, hb', rfl⟩ := h_tells
    have h_length : trail.length < lead.trail.length := by
      rw [h_trail, ← h_fits.length_eq]
      simp
    have h_three : lead.trail.length ≤ 3 := length_trail_le h_lead
    refine ⟨1 + trail.length, by omega, by omega, ⟨b :: trail, ?_, ?_, ?_⟩, ?_⟩
    · exact List.prefix_append (b :: trail) (b' :: rest)
    · rw [startsSequence_cons_iff, readScalar, h_lead]
      exact readTrail_eq_cutOff_iff.mpr ⟨rs, r, rs', h_trail, h_fits⟩
    · exact Nat.add_comm _ _
    · rintro _ ⟨v, hv, h_starts, rfl⟩
      by_contra h_lt
      -- A longer start would go on with the byte that does not fit.
      have h_misfit : b :: (trail ++ [b']) <+: v := by
        refine List.prefix_of_prefix_length_le ⟨rest, ?_⟩ hv ?_
        · simp
        · simp only [List.length_cons, List.length_append, List.length_nil]
          omega
      have h_starts' := h_starts.of_prefix h_misfit
      rw [startsSequence_cons_iff, readScalar, h_lead] at h_starts'
      simp only [h_trail, readTrail_of_misfit h_fits hb', reduceCtorEq] at h_starts'

end LinePattern.Utf8
