import PackedRatings.Proofs.File.WordArithmetic

/-!
# Which headers are written and which bytes are read as headers

A header is written exactly if its three counts fit their fields, and else the first count that
does not is named. Bytes are read as a header exactly if their fields are acceptable, and the
header is then the one that they declare, so what was written is read back whatever follows it.
With words of 64 bits neither direction faults.
-/
namespace PackedRatings

open Guarded

/-- A word of flags makes a layout if no bit but the lowest is set. -/
theorem RowLayout.ofWord_eq_ok_iff_testBit {word : UInt16} {layout : RowLayout} :
    ofWord word = .ok layout ↔
      (∀ i, 0 < i → word.toNat.testBit i = false) ∧ layout = ⟨word.toNat.testBit 0⟩ := by
  obtain ⟨timestamps⟩ := layout
  rw [ofWord_eq_ok_iff]
  constructor
  · intro h
    rw [h]
    cases timestamps with
    | false => simp
    | true =>
      refine ⟨fun i hi => ?_, rfl⟩
      exact Nat.testBit_lt_two_pow (Nat.one_lt_two_pow (Nat.ne_of_gt hi))
  · rintro ⟨hunknown, htimestamps⟩
    have hlt : word.toNat < 2 ^ 1 := Nat.lt_pow_two_of_testBit _ hunknown
    rcases (show word.toNat = 0 ∨ word.toNat = 1 by omega) with hword | hword
    · rw [hword] at htimestamps ⊢
      cases htimestamps
      rfl
    · rw [hword] at htimestamps ⊢
      cases htimestamps
      rfl

namespace FileHeader

/-- The name of the first count that is too great for its field, in the order of the fields. -/
def firstTooGreat? (h : FileHeader) : Option String :=
  ([("rating_count", h.ratingCount), ("user_count", h.userCount),
    ("item_count", h.itemCount)].find? fun (_, count) => maxCount < count).map Prod.fst

theorem firstTooGreat?_eq_none_iff {h : FileHeader} : h.firstTooGreat? = none ↔ h.Fits := by
  rw [firstTooGreat?, Option.map_eq_none_iff, List.find?_eq_none]
  simp only [List.mem_cons, List.not_mem_nil, or_false, forall_eq_or_imp, forall_eq,
    decide_eq_true_eq, Nat.not_lt]
  constructor
  · rintro ⟨hratings, husers, hitems⟩
    exact ⟨hratings, husers, hitems⟩
  · intro hfits
    exact ⟨hfits.ratingCount_le, hfits.userCount_le, hfits.itemCount_le⟩

theorem encode_eq (h : FileHeader) :
    h.encode = match h.firstTooGreat? with
      | none => .ok h.bytes
      | some name => .error (.invalidArgument name "count exceeds i32::MAX") := by
  by_cases hratings : h.ratingCount ≤ maxCount
  · by_cases husers : h.userCount ≤ maxCount
    · by_cases hitems : h.itemCount ≤ maxCount
      · have hfits : h.Fits := ⟨hratings, husers, hitems⟩
        rw [firstTooGreat?_eq_none_iff.2 hfits]
        exact encode_eq_ok_iff.2 ⟨hfits, rfl⟩
      · simp [encode, encodeCount, firstTooGreat?, hratings, husers, hitems, Nat.not_le.1 hitems]
        rfl
    · simp [encode, encodeCount, firstTooGreat?, hratings, husers, Nat.not_le.1 husers]
      rfl
  · simp [encode, encodeCount, firstTooGreat?, hratings, Nat.not_le.1 hratings]
    rfl

/-- Writes a header with words of 64 bits. The length of the rows is computed when the counts
have been found to fit. -/
def guardedEncode (h : FileHeader) : Guarded (List UInt8) := do
  let ratingCount ← lift (encodeCount "rating_count" h.ratingCount)
  let userCount ← lift (encodeCount "user_count" h.userCount)
  let itemCount ← lift (encodeCount "item_count" h.itemCount)
  let sectionLength ← word (h.ratingCount * h.layout.rowWidth)
  return magic ++ BigEndian.encode 2 h.layout.word.toNat ++ ratingCount ++ userCount ++
    itemCount ++ BigEndian.encode 8 sectionLength

theorem guardedEncode_eq_lift (h : FileHeader) : guardedEncode h = lift h.encode := by
  rw [guardedEncode, encode]
  apply lift_bind
  intro ratingCount hratings
  apply lift_bind
  intro userCount _
  apply lift_bind
  intro itemCount _
  have hle : h.ratingCount ≤ maxCount := by
    rw [encodeCount] at hratings
    split at hratings
    · assumption
    · cases hratings
  have hword : h.ratingCount * h.layout.rowWidth < UInt64.size :=
    Nat.lt_of_le_of_lt (Nat.mul_le_mul hle h.layout.rowWidth_le) (by decide)
  rw [word_eq_pure hword]
  rfl

def flagsAt (bytes : List UInt8) : Nat :=
  BigEndian.decode ((bytes.drop 6).take 2)

def countAt (place : Nat) (bytes : List UInt8) : Int :=
  BigEndian.decodeInt32 ((bytes.drop place).take 4)

def lengthAt (bytes : List UInt8) : Int :=
  (BigEndian.decodeInt64 ((bytes.drop 20).take 8)).toInt

def declared (bytes : List UInt8) : FileHeader where
  layout := ⟨(flagsAt bytes).testBit 0⟩
  ratingCount := (countAt 8 bytes).toNat
  userCount := (countAt 12 bytes).toNat
  itemCount := (countAt 16 bytes).toNat

/-- The bytes are enough for a header, start with the magic word, set no flag but the lowest,
have no negative count, and state the length that the rows have. -/
structure Acceptable (bytes : List UInt8) : Prop where
  complete : 28 ≤ bytes.length
  magic : bytes.take 6 = [0x4c, 0x4b, 0x52, 0x41, 0x54, 0x45]
  flags : ∀ i, 0 < i → (flagsAt bytes).testBit i = false
  ratingCount : 0 ≤ countAt 8 bytes
  userCount : 0 ≤ countAt 12 bytes
  itemCount : 0 ≤ countAt 16 bytes
  sectionLength : lengthAt bytes =
    countAt 8 bytes * if (flagsAt bytes).testBit 0 then 32 else 24

theorem toNat_ofNat_flagsAt {bytes : List UInt8} (hcomplete : byteLength ≤ bytes.length) :
    (UInt16.ofNat (flagsAt bytes)).toNat = flagsAt bytes := by
  have htwo : ((bytes.drop 6).take 2).length = 2 := by
    rw [byteLength] at hcomplete
    rw [List.length_take, List.length_drop]
    omega
  have hlt := BigEndian.decode_lt ((bytes.drop 6).take 2)
  rw [htwo] at hlt
  rw [UInt16.toNat_ofNat']
  exact Nat.mod_eq_of_lt hlt

theorem sectionLength_declared {bytes : List UInt8} (hratings : 0 ≤ countAt 8 bytes) :
    ((declared bytes).sectionLength : Int) =
      countAt 8 bytes * if (flagsAt bytes).testBit 0 then 32 else 24 := by
  rw [sectionLength, RowLayout.rowWidth, Int.natCast_mul]
  change ((countAt 8 bytes).toNat : Int) * _ = _
  rw [Int.toNat_of_nonneg hratings]
  congr 1
  cases hflag : (flagsAt bytes).testBit 0 with
  | false => simp [declared, hflag]
  | true => simp [declared, hflag]

theorem parse_eq_ok_iff_acceptable {bytes : List UInt8} {h : FileHeader} :
    parse bytes = .ok h ↔ Acceptable bytes ∧ h = declared bytes := by
  simp only [parse, readFields, bind_eq_ok_iff, Requirement.check_eq_ok_iff, exists_const,
    pure_eq_ok_iff, Prod.exists, Prod.mk.injEq, RowLayout.ofWord_eq_ok_iff_testBit]
  constructor
  · rintro ⟨_, _, ⟨hcomplete, hmagic, layout, hlayout, hratings, husers, hitems, rfl, rfl⟩,
      hlength, rfl⟩
    rcases hlayout with ⟨hflags, rfl⟩
    have hword := toNat_ofNat_flagsAt hcomplete
    rw [flagsAt] at hword
    rw [hword] at hflags hlength ⊢
    refine ⟨⟨hcomplete, hmagic, hflags, hratings, husers, hitems, ?_⟩, rfl⟩
    exact hlength.trans (sectionLength_declared hratings)
  · rintro ⟨hbytes, rfl⟩
    have hword := toNat_ofNat_flagsAt hbytes.complete
    have hlayout : (∀ i, 0 < i → (UInt16.ofNat (flagsAt bytes)).toNat.testBit i = false) ∧
        (declared bytes).layout = ⟨(UInt16.ofNat (flagsAt bytes)).toNat.testBit 0⟩ := by
      rw [hword]
      exact ⟨hbytes.flags, rfl⟩
    refine ⟨declared bytes, lengthAt bytes, ⟨hbytes.complete, hbytes.magic, _, hlayout,
      hbytes.ratingCount, hbytes.userCount, hbytes.itemCount, rfl, rfl⟩, ?_, rfl⟩
    exact hbytes.sectionLength.trans (sectionLength_declared hbytes.ratingCount).symm

/-- Reads a header with words of 64 bits. The magic word is cut off after the length is checked,
and the length of the rows is computed when the counts have been found to be no less than zero. -/
def guardedParse (file : ByteArray) : Guarded FileHeader := do
  let (header, stated) ← RatingFile.guardedFields file
  let sectionLength ← word (header.ratingCount * header.layout.rowWidth)
  lift (Requirement.sectionLengthMatches.check (stated = sectionLength))
  return header

theorem guardedParse_eq_lift (file : ByteArray) :
    guardedParse file = lift (parse file.data.toList) := by
  rw [guardedParse, parse, RatingFile.guardedFields_eq_lift]
  apply lift_bind
  rintro ⟨header, stated⟩ hread
  have hlt := sectionLength_lt (readFields_eq_ok hread).1
  have hword : word (header.ratingCount * header.layout.rowWidth) = pure header.sectionLength :=
    word_eq_pure (Nat.lt_trans hlt (by decide))
  dsimp only
  rw [hword, pure_bind]
  apply lift_bind
  intro _ _
  rfl

/-- A header is written exactly if each count fits a signed word of 32 bits, and what was written
is read back. -/
structure Written (h : FileHeader) : Prop where
  encode : h.encode = match h.firstTooGreat? with
    | none => .ok h.bytes
    | some name => .error (.invalidArgument name "count exceeds i32::MAX")
  fits : h.firstTooGreat? = none ↔
    h.ratingCount ≤ 0x7fffffff ∧ h.userCount ≤ 0x7fffffff ∧ h.itemCount ≤ 0x7fffffff
  withoutFault : guardedEncode h = lift h.encode
  length : h.bytes.length = 28
  readBack : h.firstTooGreat? = none → ∀ rest, parse (h.bytes ++ rest) = .ok h

/-- Bytes are read as a header exactly if they are acceptable, and else refused as the contents
of a file. -/
structure Judged (bytes : List UInt8) : Prop where
  accepted : ∀ h, parse bytes = .ok h ↔ Acceptable bytes ∧ h = declared bytes
  refused : ¬ Acceptable bytes → ∃ element message,
    parse bytes = .error (.invalidFormat element message)
  withoutFault : guardedParse ⟨⟨bytes⟩⟩ = lift (parse bytes)

theorem header_codec : (∀ h : FileHeader, h.Written) ∧ ∀ bytes, Judged bytes := by
  constructor
  · intro h
    refine ⟨h.encode_eq, ?_, h.guardedEncode_eq_lift, h.length_bytes, ?_⟩
    · rw [firstTooGreat?_eq_none_iff]
      constructor
      · intro hfits
        exact ⟨hfits.ratingCount_le, hfits.userCount_le, hfits.itemCount_le⟩
      · rintro ⟨hratings, husers, hitems⟩
        exact ⟨hratings, husers, hitems⟩
    · intro hfits rest
      exact parse_eq_ok_iff.2 ⟨firstTooGreat?_eq_none_iff.1 hfits, rest, rfl⟩
  · intro bytes
    refine ⟨fun h => parse_eq_ok_iff_acceptable, fun hbytes => ?_, guardedParse_eq_lift _⟩
    cases hparse : parse bytes with
    | ok h => exact absurd (parse_eq_ok_iff_acceptable.1 hparse).1 hbytes
    | error failure =>
      obtain ⟨element, message, rfl⟩ := parse_refuses bytes failure hparse
      exact ⟨element, message, rfl⟩

/-- The greatest count that fits, and behind it one that does not. -/
theorem header_codec_greatestCount :
    (∀ rest, parse (FileHeader.bytes ⟨⟨true⟩, 0x7fffffff, 0, 1⟩ ++ rest) =
      .ok ⟨⟨true⟩, 0x7fffffff, 0, 1⟩) ∧
    encode ⟨⟨true⟩, 0x7fffffff, 0x80000000, 0x80000000⟩ =
      .error (.invalidArgument "user_count" "count exceeds i32::MAX") :=
  ⟨(header_codec.1 _).readBack (by decide), (header_codec.1 _).encode⟩

end FileHeader

end PackedRatings
