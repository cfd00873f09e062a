/-!
# Big-endian fields

Numbers in files are byte sequences of fixed width, the most significant byte first. The
main statements say that decoding inverts encoding for numbers that fit the width, and that
encoding inverts decoding for all bytes.
-/
namespace PackedRatings.BigEndian

/-- How many numbers fit a field of `width` bytes. -/
def capacity : (width : Nat) → Nat
  | 0 => 1
  | width + 1 => 256 * capacity width

theorem capacity_pos (width : Nat) : 0 < capacity width := by
  induction width with
  | zero => decide
  | succ width ih => exact Nat.mul_pos (by decide) ih

/-- The `width` low bytes of `n`. -/
def encode : (width n : Nat) → List UInt8
  | 0, _ => []
  | width + 1, n => UInt8.ofNat (n / capacity width) :: encode width n

def decode : List UInt8 → Nat
  | [] => 0
  | b :: bytes => b.toNat * capacity bytes.length + decode bytes

@[simp] theorem length_encode (width n : Nat) : (encode width n).length = width := by
  induction width with
  | zero => rfl
  | succ width ih => simp [encode, ih]

theorem decode_lt (bytes : List UInt8) : decode bytes < capacity bytes.length := by
  induction bytes with
  | nil => simp [decode, capacity]
  | cons b bytes ih =>
    rw [decode, List.length_cons, capacity]
    have hb : b.toNat < 256 := b.toNat_lt
    calc b.toNat * capacity bytes.length + decode bytes
        < b.toNat * capacity bytes.length + capacity bytes.length := Nat.add_lt_add_left ih _
      _ = (b.toNat + 1) * capacity bytes.length := by rw [Nat.add_mul, Nat.one_mul]
      _ ≤ 256 * capacity bytes.length := Nat.mul_le_mul_right _ hb

theorem decode_encode (width n : Nat) : decode (encode width n) = n % capacity width := by
  induction width with
  | zero => simp [encode, decode, capacity, Nat.mod_one]
  | succ width ih =>
    rw [encode, decode, length_encode, ih]
    have h : (UInt8.ofNat (n / capacity width)).toNat = n / capacity width % 256 := by simp
    rw [h, capacity, Nat.mul_comm 256, Nat.mod_mul, Nat.mul_comm, Nat.add_comm]

theorem encode_add_mul (width n m : Nat) :
    encode width (n * capacity width + m) = encode width m := by
  induction width generalizing n with
  | zero => rfl
  | succ width ih =>
    rw [encode, encode, capacity, ← Nat.mul_assoc, ih (n * 256)]
    congr 1
    rw [Nat.add_comm, Nat.add_mul_div_right _ _ (capacity_pos width), ← UInt8.toNat_inj]
    simp

theorem encode_decode (bytes : List UInt8) : encode bytes.length (decode bytes) = bytes := by
  induction bytes with
  | nil => rfl
  | cons b bytes ih =>
    rw [List.length_cons, encode, decode, encode_add_mul, ih]
    congr 1
    rw [Nat.add_comm, Nat.add_mul_div_right _ _ (capacity_pos _),
      Nat.div_eq_of_lt (decode_lt bytes), Nat.zero_add, UInt8.ofNat_toNat]

def encodeInt64 (k : Int64) : List UInt8 :=
  encode 8 k.toUInt64.toNat

def decodeInt64 (bytes : List UInt8) : Int64 :=
  (UInt64.ofNat (decode bytes)).toInt64

def decodeInt32 (bytes : List UInt8) : Int :=
  (UInt32.ofNat (decode bytes)).toInt32.toInt

def split? : Nat → List UInt8 → Option (List UInt8 × List UInt8)
  | 0, bytes => some ([], bytes)
  | _ + 1, [] => none
  | width + 1, b :: bytes => (split? width bytes).map fun (field, rest) => (b :: field, rest)

theorem split?_eq_some_iff {width : Nat} {bytes field rest : List UInt8} :
    split? width bytes = some (field, rest) ↔ bytes = field ++ rest ∧ field.length = width := by
  induction width generalizing bytes field with
  | zero =>
    simp only [split?, Option.some.injEq, Prod.mk.injEq, List.length_eq_zero_iff]
    constructor
    · rintro ⟨rfl, rfl⟩
      simp
    · rintro ⟨h, rfl⟩
      simp [h]
  | succ width ih =>
    cases bytes with
    | nil => cases field <;> simp [split?]
    | cons b bytes =>
      cases field with
      | nil => simp [split?]
      | cons c field =>
        simp only [split?, Option.map_eq_some_iff, Prod.exists, Prod.mk.injEq, List.cons.injEq,
          List.cons_append, List.length_cons, Nat.add_right_cancel_iff]
        constructor
        · rintro ⟨f, r, h, ⟨rfl, rfl⟩, rfl⟩
          exact ⟨⟨rfl, (ih.1 h).1⟩, (ih.1 h).2⟩
        · rintro ⟨⟨rfl, h⟩, hl⟩
          exact ⟨field, rest, ih.2 ⟨h, hl⟩, ⟨rfl, rfl⟩, rfl⟩

end PackedRatings.BigEndian
