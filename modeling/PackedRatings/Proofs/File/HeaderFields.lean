import PackedRatings.Proofs.File.Fields
import PackedRatings.Proofs.File.Image
import PackedRatings.Proofs.Outcome

/-!
# Reading and writing a header

A header is read exactly from its 28 bytes, whatever follows them, and is written exactly if
its counts fit their fields.
-/
namespace PackedRatings

namespace RowLayout

/-- Clearing the known flag leaves nothing exactly if the word is zero or one. -/
theorem toNat_lt_two_of_unknown_eq_zero {word : UInt16}
    (h : word &&& ~~~ wordOf LayoutFlag.all = 0) : word.toNat < 2 := by
  have hknown : wordOf LayoutFlag.all = 1 := by decide
  rw [hknown] at h
  have hbits : word.toBitVec &&& ~~~ 1#16 = 0#16 := congrArg UInt16.toBitVec h
  refine Nat.lt_pow_two_of_testBit (n := 1) _ fun i hi => ?_
  have hbit : (word.toBitVec &&& ~~~ 1#16).getLsbD i = (0#16).getLsbD i := by rw [hbits]
  by_cases hlt : i < 16
  · have hone : (1#16).getLsbD i = false := by
      simp [BitVec.getLsbD_one]
      omega
    rw [BitVec.getLsbD_and, BitVec.getLsbD_not, hone, BitVec.getLsbD_zero] at hbit
    change word.toBitVec.getLsbD i = false
    rw [← hbit, decide_eq_true hlt, Bool.not_false, Bool.and_true, Bool.and_true]
  · exact BitVec.getLsbD_of_ge _ _ (by omega)

theorem ofWord_eq_ok_iff {word : UInt16} {layout : RowLayout} :
    ofWord word = .ok layout ↔ word.toNat = if layout.timestamps then 1 else 0 := by
  constructor
  · intro h
    rw [ofWord] at h
    split at h
    · rename_i hunknown
      have hlt := toNat_lt_two_of_unknown_eq_zero hunknown
      cases h
      rcases (show word.toNat = 0 ∨ word.toNat = 1 by omega) with hw | hw
      · obtain rfl : word = 0 := UInt16.toNat_inj.1 hw
        rfl
      · obtain rfl : word = 1 := UInt16.toNat_inj.1 hw
        rfl
    · cases h
  · intro h
    obtain ⟨timestamps⟩ := layout
    cases timestamps with
    | false =>
      obtain rfl : word = 0 := UInt16.toNat_inj.1 h
      rfl
    | true =>
      obtain rfl : word = 1 := UInt16.toNat_inj.1 h
      rfl

theorem ofWord_refuses (word : UInt16) : RefusesFormatOnly (ofWord word) := by
  simp only [ofWord]
  split
  · exact .ok _
  · exact .error _ _

theorem toNat_word (layout : RowLayout) :
    layout.word.toNat = if layout.timestamps then 1 else 0 := by
  rcases layout with ⟨timestamps⟩
  cases timestamps <;> rfl

theorem rowWidth_le (layout : RowLayout) : layout.rowWidth ≤ 32 := by
  unfold rowWidth
  split <;> decide

end RowLayout

namespace FileHeader

@[simp] theorem length_bytes (h : FileHeader) : h.bytes.length = byteLength := by
  simp [bytes, magic, byteLength]

/-- The places of the header fields. -/
theorem eq_append_fields (bytes : List UInt8) :
    bytes = bytes.take 6 ++ (bytes.drop 6).take 2 ++ (bytes.drop 8).take 4 ++
      (bytes.drop 12).take 4 ++ (bytes.drop 16).take 4 ++ (bytes.drop 20).take 8 ++
      bytes.drop 28 := by
  simp only [← List.take_add]
  exact (List.take_append_drop 28 bytes).symm

theorem sectionLength_lt {h : FileHeader} (hfits : h.Fits) :
    h.sectionLength < 0x8000000000000000 := by
  have hwidth := h.layout.rowWidth_le
  calc h.sectionLength ≤ maxCount * 32 := Nat.mul_le_mul hfits.ratingCount_le hwidth
    _ < 0x8000000000000000 := by decide

/-- The fields before the length of the rows. -/
def declarations (h : FileHeader) : List UInt8 :=
  magic ++ BigEndian.encode 2 (if h.layout.timestamps then 1 else 0) ++
    BigEndian.encode 4 h.ratingCount ++ BigEndian.encode 4 h.userCount ++
    BigEndian.encode 4 h.itemCount

theorem bytes_eq_declarations_append (h : FileHeader) :
    h.bytes = h.declarations ++ BigEndian.encode 8 h.sectionLength := rfl

@[simp] theorem length_declarations (h : FileHeader) : h.declarations.length = 20 := by
  simp [declarations, magic]

theorem readFields_eq_ok {bytes : List UInt8} {h : FileHeader} {stated : Int}
    (hread : readFields bytes = .ok (h, stated)) :
    h.Fits ∧ byteLength ≤ bytes.length ∧
      bytes = h.declarations ++ (bytes.drop 20).take 8 ++ bytes.drop 28 ∧
      stated = (BigEndian.decodeInt64 ((bytes.drop 20).take 8)).toInt := by
  simp only [readFields, bind_eq_ok_iff, Requirement.check_eq_ok_iff, exists_const,
    pure_eq_ok_iff, Prod.mk.injEq] at hread
  obtain ⟨hlength, hmagic, layout, hlayout, hratings, husers, hitems, rfl, rfl⟩ := hread
  rw [byteLength] at hlength
  have hfield : ∀ start, start + 4 ≤ 28 → ((bytes.drop start).take 4).length = 4 := by
    intro start hstart
    rw [List.length_take, List.length_drop]
    omega
  obtain ⟨hratingCount, hratingField⟩ :=
    BigEndian.toNat_decodeInt32 (hfield 8 (by decide)) hratings
  rcases BigEndian.toNat_decodeInt32 (hfield 12 (by decide)) husers with ⟨huserCount, huserField⟩
  obtain ⟨hitemCount, hitemField⟩ := BigEndian.toNat_decodeInt32 (hfield 16 (by decide)) hitems
  have hflagField : (bytes.drop 6).take 2 =
      BigEndian.encode 2 (if layout.timestamps then 1 else 0) := by
    have htwo : ((bytes.drop 6).take 2).length = 2 := by
      rw [List.length_take, List.length_drop]
      omega
    have hlt := BigEndian.decode_lt ((bytes.drop 6).take 2)
    rw [htwo] at hlt
    rw [← RowLayout.ofWord_eq_ok_iff.1 hlayout, UInt16.toNat_ofNat']
    exact (BigEndian.eq_encode_decode htwo).trans
      (congrArg (BigEndian.encode 2) (Nat.mod_eq_of_lt hlt).symm)
  refine ⟨⟨hratingCount, huserCount, hitemCount⟩, hlength, ?_, rfl⟩
  rw [declarations, ← hmagic, ← hflagField, ← hratingField, ← huserField, ← hitemField]
  exact eq_append_fields bytes

theorem readFields_append {h : FileHeader} (hfits : h.Fits) {field : List UInt8}
    (hfield : field.length = 8) (rest : List UInt8) :
    readFields (h.declarations ++ field ++ rest) =
      .ok (h, (BigEndian.decodeInt64 field).toInt) := by
  have hlength : byteLength ≤ (h.declarations ++ field ++ rest).length := by
    simp only [List.length_append, length_declarations, hfield, byteLength]
    omega
  have hflags : ((h.declarations ++ field ++ rest).drop 6).take 2 =
      BigEndian.encode 2 (if h.layout.timestamps then 1 else 0) := by
    simp [declarations, magic]
  have hratings : ((h.declarations ++ field ++ rest).drop 8).take 4 =
      BigEndian.encode 4 h.ratingCount := by
    simp [declarations, magic]
  have husers : ((h.declarations ++ field ++ rest).drop 12).take 4 =
      BigEndian.encode 4 h.userCount := by
    simp [declarations, magic, List.drop_append, List.drop_of_length_le]
  have hitems : ((h.declarations ++ field ++ rest).drop 16).take 4 =
      BigEndian.encode 4 h.itemCount := by
    simp [declarations, magic, List.drop_append, List.drop_of_length_le]
  have hsection : ((h.declarations ++ field ++ rest).drop 20).take 8 = field := by
    simp [declarations, magic, hfield, List.drop_append, List.drop_of_length_le]
  have hlayout : RowLayout.ofWord (UInt16.ofNat (BigEndian.decode (BigEndian.encode 2
      (if h.layout.timestamps then 1 else 0)))) = .ok h.layout := by
    rw [RowLayout.ofWord_eq_ok_iff, BigEndian.decode_encode]
    cases h.layout.timestamps <;> rfl
  simp only [readFields, bind_eq_ok_iff, Requirement.check_eq_ok_iff, exists_const,
    pure_eq_ok_iff, hflags, hratings, husers, hitems, hsection,
    BigEndian.decodeInt32_encode hfits.ratingCount_le,
    BigEndian.decodeInt32_encode hfits.userCount_le,
    BigEndian.decodeInt32_encode hfits.itemCount_le, Int.toNat_natCast]
  exact ⟨hlength, by simp [declarations, magic], h.layout, hlayout, by omega, by omega, by omega,
    rfl⟩

/-- A header is read exactly from its own bytes. -/
theorem parse_eq_ok_iff {bytes : List UInt8} {h : FileHeader} :
    parse bytes = .ok h ↔ h.Fits ∧ ∃ rest, bytes = h.bytes ++ rest := by
  simp only [parse, bind_eq_ok_iff, Requirement.check_eq_ok_iff, exists_const, pure_eq_ok_iff,
    Prod.exists]
  constructor
  · rintro ⟨h', stated, hread, hstated, rfl⟩
    rcases readFields_eq_ok hread with ⟨hfits, hlength, hbytes, rfl⟩
    have hfield : ((bytes.drop 20).take 8).length = 8 := by
      rw [List.length_take, List.length_drop]
      rw [byteLength] at hlength
      omega
    refine ⟨hfits, bytes.drop 28, ?_⟩
    rwa [(BigEndian.toInt_decodeInt64_eq_iff hfield (sectionLength_lt hfits)).1 hstated,
      ← bytes_eq_declarations_append] at hbytes
  · rintro ⟨hfits, rest, rfl⟩
    have hfield := BigEndian.length_encode 8 h.sectionLength
    refine ⟨h, _, readFields_append hfits hfield rest, ?_, rfl⟩
    exact (BigEndian.toInt_decodeInt64_eq_iff hfield (sectionLength_lt hfits)).2 rfl

/-- A header is written exactly if its counts fit, and then as its bytes. -/
theorem encode_eq_ok_iff {h : FileHeader} {bytes : List UInt8} :
    encode h = .ok bytes ↔ h.Fits ∧ bytes = h.bytes := by
  have hcount : ∀ {name count field}, encodeCount name count = .ok field ↔
      count ≤ maxCount ∧ field = BigEndian.encode 4 count := by
    intro name count field
    by_cases hle : count ≤ maxCount
    · simp [encodeCount, hle, eq_comm]
    · simp [encodeCount, hle]
  simp only [encode, bind_eq_ok_iff, hcount, pure_eq_ok_iff, RowLayout.toNat_word]
  constructor
  · rintro ⟨_, ⟨hratings, rfl⟩, _, ⟨husers, rfl⟩, _, ⟨hitems, rfl⟩, rfl⟩
    exact ⟨⟨hratings, husers, hitems⟩, rfl⟩
  · rintro ⟨⟨hratings, husers, hitems⟩, rfl⟩
    exact ⟨_, ⟨hratings, rfl⟩, _, ⟨husers, rfl⟩, _, ⟨hitems, rfl⟩, rfl⟩

theorem readFields_refuses (bytes : List UInt8) : RefusesFormatOnly (readFields bytes) := by
  refine .bind (.check rfl) fun _ _ => .bind (.check rfl) fun _ _ =>
    .bind (RowLayout.ofWord_refuses _) fun _ _ => .bind (.check rfl) fun _ _ =>
    .bind (.check rfl) fun _ _ => .bind (.check rfl) fun _ _ => .ok _

theorem parse_refuses (bytes : List UInt8) : RefusesFormatOnly (parse bytes) :=
  .bind (readFields_refuses bytes) fun _ _ => .bind (.check rfl) fun _ _ => .ok _

end FileHeader

end PackedRatings
