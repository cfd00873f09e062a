import PackedRatings.File.FileHeader

/-!
# Reading back what was written into a field

Each kind of field is read back as written, and each field of the right width is what is
written for the number that is read from it. So a number determines its field and the field
its number.
-/
namespace PackedRatings

theorem data_toList_extract (file : ByteArray) (start stop : Nat) :
    (file.extract start stop).data.toList = (file.data.toList.drop start).take (stop - start) := by
  rw [ByteArray.data_extract, Array.toList_extract, List.extract_eq_take_drop]

theorem length_data_toList (file : ByteArray) : file.data.toList.length = file.size :=
  Array.length_toList

namespace BigEndian

theorem eq_encode_decode {width : Nat} {field : List UInt8} (h : field.length = width) :
    field = encode width (decode field) := by
  rw [← h, encode_decode]

@[simp] theorem length_encodeInt64 (k : Int64) : (encodeInt64 k).length = 8 :=
  length_encode 8 _

@[simp] theorem decodeInt64_encodeInt64 (k : Int64) : decodeInt64 (encodeInt64 k) = k := by
  have hk : k.toUInt64.toNat < capacity 8 := k.toUInt64.toNat_lt
  rw [decodeInt64, encodeInt64, decode_encode, Nat.mod_eq_of_lt hk, UInt64.ofNat_toNat]
  rfl

theorem encodeInt64_decodeInt64 {field : List UInt8} (h : field.length = 8) :
    encodeInt64 (decodeInt64 field) = field := by
  have hlt : decode field < capacity 8 := h ▸ decode_lt field
  have hword : (decodeInt64 field).toUInt64 = UInt64.ofNat (decode field) := rfl
  have hnat : (UInt64.ofNat (decode field)).toNat = decode field := by
    rw [UInt64.toNat_ofNat']
    exact Nat.mod_eq_of_lt hlt
  rw [encodeInt64, hword, hnat, ← eq_encode_decode h]

/-- A length that a signed word can hold is read back from its field, and from no other. -/
theorem toInt_decodeInt64_eq_iff {field : List UInt8} (h : field.length = 8) {n : Nat}
    (hn : n < 0x8000000000000000) :
    (decodeInt64 field).toInt = n ↔ field = encode 8 n := by
  have hlt : decode field < capacity 8 := h ▸ decode_lt field
  have hint : (decodeInt64 field).toInt = (decode field : Int).bmod (capacity 8) := by
    change (UInt64.ofNat (decode field)).toBitVec.toInt = _
    rw [UInt64.toBitVec_ofNat', BitVec.toInt_eq_toNat_bmod, BitVec.toNat_ofNat]
    exact congrArg (fun m : Nat => (m : Int).bmod (capacity 8)) (Nat.mod_eq_of_lt hlt)
  have hvalue : (decodeInt64 field).toInt = n ↔ decode field = n := by
    rw [hint]
    simp only [capacity, Int.bmod] at *
    omega
  rw [hvalue]
  constructor
  · rintro rfl
    exact eq_encode_decode h
  · rintro rfl
    rw [decode_encode]
    exact Nat.mod_eq_of_lt (Nat.lt_trans hn (by decide))

theorem decodeInt32_eq_bmod {field : List UInt8} (h : field.length = 4) :
    decodeInt32 field = (decode field : Int).bmod (capacity 4) := by
  have hlt : decode field < capacity 4 := h ▸ decode_lt field
  change (UInt32.ofNat (decode field)).toBitVec.toInt = _
  rw [UInt32.toBitVec_ofNat', BitVec.toInt_eq_toNat_bmod, BitVec.toNat_ofNat]
  exact congrArg (fun m : Nat => (m : Int).bmod (capacity 4)) (Nat.mod_eq_of_lt hlt)

/-- A field that is not negative holds a count. -/
theorem toNat_decodeInt32 {field : List UInt8} (h : field.length = 4)
    (hnonneg : 0 ≤ decodeInt32 field) :
    (decodeInt32 field).toNat ≤ FileHeader.maxCount ∧
      field = encode 4 (decodeInt32 field).toNat := by
  have hlt : decode field < capacity 4 := h ▸ decode_lt field
  have hvalue : decodeInt32 field = decode field ∧ decode field ≤ FileHeader.maxCount := by
    rw [decodeInt32_eq_bmod h] at *
    simp only [capacity, Int.bmod, FileHeader.maxCount] at *
    omega
  rw [hvalue.1, Int.toNat_natCast]
  exact ⟨hvalue.2, eq_encode_decode h⟩

theorem decodeInt32_encode {n : Nat} (hn : n ≤ FileHeader.maxCount) :
    decodeInt32 (encode 4 n) = n := by
  have hlt : n < capacity 4 := Nat.lt_of_le_of_lt hn (by decide)
  rw [decodeInt32_eq_bmod (length_encode 4 n), decode_encode, Nat.mod_eq_of_lt hlt]
  simp only [capacity, Int.bmod, FileHeader.maxCount] at *
  omega

end BigEndian

end PackedRatings
