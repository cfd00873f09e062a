import PackedRatings.Proofs.File.PackingRun

/-!
# Headers that are written in part

If only a front of a header is written, what stands in its place is the front with zeros behind
it. These bytes are a header only if nothing is missing, or if the front ends before the first byte
of the number of ratings that is not zero: then they are the header of a file without ratings. An
unfinished file has them at its start, and behind them it is the finished file.
-/
namespace PackedRatings

namespace BigEndian

theorem capacity_le_capacity {m n : Nat} (h : m ≤ n) : capacity m ≤ capacity n := by
  induction h with
  | refl => exact Nat.le_refl _
  | step _ ih =>
    apply Nat.le_trans ih
    rw [capacity]
    exact Nat.le_mul_of_pos_left _ (by decide)

/-- The first bytes of a field are zeros exactly if the number fits the other bytes. -/
theorem take_encode_eq_take_zero_iff {width n : Nat} (hn : n < capacity width) (length : Nat) :
    (encode width n).take length = (encode width 0).take length ↔
      n < capacity (width - length) := by
  induction width generalizing length with
  | zero => simpa [encode] using hn
  | succ width ih =>
    cases length with
    | zero => simpa using hn
    | succ length =>
      rw [encode, encode, List.take_succ_cons, List.take_succ_cons, List.cons.injEq,
        Nat.add_sub_add_right]
      have hdigit : n / capacity width < 256 := by
        rw [capacity] at hn
        exact Nat.div_lt_of_lt_mul (Nat.mul_comm 256 _ ▸ hn)
      have hfirst : UInt8.ofNat (n / capacity width) = UInt8.ofNat (0 / capacity width) ↔
          n < capacity width := by
        rw [← UInt8.toNat_inj, UInt8.toNat_ofNat', UInt8.toNat_ofNat', Nat.mod_eq_of_lt hdigit,
          Nat.zero_div, Nat.zero_mod, Nat.div_eq_zero_iff]
        have := capacity_pos width
        omega
      rw [hfirst]
      constructor
      · rintro ⟨hlt, htake⟩
        exact (ih hlt length).1 htake
      · intro hlt
        have hwidth := Nat.lt_of_lt_of_le hlt (capacity_le_capacity (Nat.sub_le width length))
        exact ⟨hwidth, (ih hwidth length).2 hlt⟩

end BigEndian

namespace FileHeader

/-- What stands in the place of a header of which the first `k` bytes are written. -/
def cut (h : FileHeader) (k : Nat) : List UInt8 :=
  h.bytes.take k ++ List.replicate (byteLength - k) 0

/-- The magic word is written, and no byte of the number of ratings that is not zero. -/
def LacksCount (h : FileHeader) (k : Nat) : Prop :=
  6 ≤ k ∧ h.ratingCount < BigEndian.capacity (12 - k)

/-- The layout that the front states. The flag is in the eighth byte. -/
def layoutOfFront (h : FileHeader) (k : Nat) : RowLayout :=
  ⟨h.layout.timestamps && decide (8 ≤ k)⟩

theorem bytes_take_declarations (h : FileHeader) : h.bytes.take 20 = h.declarations := by
  rw [bytes_eq_declarations_append, ← h.length_declarations, List.take_left]

theorem bytes_drop_declarations (h : FileHeader) :
    h.bytes.drop 20 = BigEndian.encode 8 h.sectionLength := by
  rw [bytes_eq_declarations_append, ← h.length_declarations, List.drop_left]

theorem bytes_ratingCount (h : FileHeader) :
    (h.bytes.drop 8).take 4 = BigEndian.encode 4 h.ratingCount := by
  simp [bytes, magic]

/-- The declarations of a header are read from nothing else. -/
theorem eq_of_declarations_eq {h h' : FileHeader} (hfits : h.Fits) (hfits' : h'.Fits)
    (heq : h.declarations = h'.declarations) : h = h' := by
  have hread := readFields_append hfits (BigEndian.length_encode 8 0) []
  rw [heq, readFields_append hfits' (BigEndian.length_encode 8 0) []] at hread
  exact (Prod.mk.inj (Except.ok.inj hread)).1.symm

theorem fits_ofLayout (layout : RowLayout) : (ofLayout layout).Fits where
  ratingCount_le := Nat.zero_le _
  userCount_le := Nat.zero_le _
  itemCount_le := Nat.zero_le _

variable {h h' : FileHeader} {k : Nat}

theorem Fits.ratingCount_lt (hfits : h.Fits) : h.ratingCount < BigEndian.capacity 4 :=
  Nat.lt_of_le_of_lt hfits.ratingCount_le (by decide)

/-- A header that declares ratings is not that of a file without ratings. -/
theorem bytes_ofLayout_ne (hfits : h.Fits) (hpos : 0 < h.ratingCount) (layout : RowLayout) :
    (ofLayout layout).bytes ≠ h.bytes := by
  intro hbytes
  have hheader : ofLayout layout = h := by
    apply eq_of_declarations_eq (fits_ofLayout layout) hfits
    rw [← bytes_take_declarations, hbytes, bytes_take_declarations]
  rw [← hheader] at hpos
  exact Nat.lt_irrefl 0 hpos

@[simp] theorem length_cut (hk : k ≤ byteLength) : (h.cut k).length = byteLength := by
  rw [cut, List.length_append, List.length_take, length_bytes, List.length_replicate]
  omega

theorem take_eq_of_cut_eq (hk : k ≤ byteLength) (hcut : h.cut k = h'.bytes) :
    h.bytes.take k = h'.bytes.take k := by
  rw [← hcut, cut, List.take_left']
  rw [List.length_take, length_bytes, Nat.min_eq_left hk]

theorem drop_eq_of_cut_eq (hk : k ≤ byteLength) (hcut : h.cut k = h'.bytes) {place : Nat}
    (hplace : k ≤ place) : h'.bytes.drop place = List.replicate (byteLength - place) 0 := by
  have hdrop : h'.bytes.drop k = List.replicate (byteLength - k) 0 := by
    rw [← hcut, cut, List.drop_left']
    rw [List.length_take, length_bytes, Nat.min_eq_left hk]
  rw [← Nat.add_sub_of_le hplace, ← List.drop_drop, hdrop, List.drop_replicate]
  congr 1
  omega

/-- A header without its length is one only if it declares no ratings. -/
theorem ratingCount_eq_zero_of_cut_eq (hfits : h'.Fits) (hk : k ≤ 20) (hcut : h.cut k = h'.bytes) :
    h'.ratingCount = 0 := by
  have hblank := drop_eq_of_cut_eq (Nat.le_trans hk (by decide)) hcut hk
  rw [bytes_drop_declarations] at hblank
  have hlt : h'.sectionLength < BigEndian.capacity 8 :=
    Nat.lt_trans (sectionLength_lt hfits) (by decide)
  have hsection : h'.sectionLength < BigEndian.capacity (8 - 8) := by
    rw [← BigEndian.take_encode_eq_take_zero_iff hlt, hblank]
    rfl
  have hwidth : 0 < h'.layout.rowWidth := by
    rw [RowLayout.rowWidth]
    split <;> decide
  have hzero : h'.sectionLength = 0 := Nat.lt_one_iff.1 hsection
  rw [sectionLength, Nat.mul_eq_zero] at hzero
  exact hzero.resolve_right (Nat.ne_of_gt hwidth)

/-- A front without the last letter of the magic word is not a header. -/
theorem six_le_of_cut_eq (hk : k ≤ byteLength) (hcut : h.cut k = h'.bytes) : 6 ≤ k := by
  apply Nat.le_of_not_lt
  intro hlt
  have hblank := drop_eq_of_cut_eq hk hcut (Nat.le_of_lt_succ hlt)
  have hletter : (h'.bytes.drop 5).head? = some 0x45 := rfl
  rw [hblank] at hletter
  cases hletter

/-- A front of a header is read as a header only if it says nothing of its ratings, or if it says
all. -/
theorem lacksCount_or_eq_of_cut_eq (hfits : h.Fits) (hfits' : h'.Fits) (hk : k ≤ byteLength)
    (hcut : h.cut k = h'.bytes) : h.LacksCount k ∨ h' = h := by
  have hfront := take_eq_of_cut_eq hk hcut
  -- The length of the rows starts after twenty bytes. Without it there must be no ratings, and so
  -- the bytes of their number that are written are zeros.
  by_cases hlength : k ≤ 20
  · left
    have hzero := ratingCount_eq_zero_of_cut_eq hfits' hlength hcut
    have hcount : (BigEndian.encode 4 h.ratingCount).take (k - 8) =
        (BigEndian.encode 4 0).take (k - 8) := by
      rw [← hzero, ← bytes_ratingCount, ← bytes_ratingCount, List.take_take, List.take_take,
        Nat.min_comm, ← List.take_take, ← List.take_take, ← List.drop_take, hfront, List.drop_take]
    have hlt := (BigEndian.take_encode_eq_take_zero_iff hfits.ratingCount_lt _).1 hcount
    refine ⟨six_le_of_cut_eq hk hcut, Nat.lt_of_lt_of_le hlt ?_⟩
    exact BigEndian.capacity_le_capacity (by omega)
  · right
    have hdeclared := congrArg (List.take 20) hfront
    rw [List.take_take, List.take_take, Nat.min_eq_left (Nat.le_of_not_le hlength),
      bytes_take_declarations, bytes_take_declarations] at hdeclared
    exact (eq_of_declarations_eq hfits hfits' hdeclared).symm

theorem bytes_ofLayout (layout : RowLayout) : (ofLayout layout).bytes =
    magic ++ BigEndian.encode 2 (if layout.timestamps then 1 else 0) ++ List.replicate 20 0 := by
  obtain ⟨timestamps⟩ := layout
  cases timestamps <;> rfl

theorem bytes_take_of_le (h6 : 6 ≤ k) (h12 : k ≤ 12) : h.bytes.take k =
    magic ++ (BigEndian.encode 2 (if h.layout.timestamps then 1 else 0)).take (k - 6) ++
      (BigEndian.encode 4 h.ratingCount).take (k - 8) := by
  have hmagic : magic.take k = magic := List.take_of_length_le h6
  simp only [bytes, List.append_assoc, List.take_append, hmagic, BigEndian.length_encode]
  simp [magic, Nat.sub_sub]
  omega

theorem LacksCount.lt_twelve (hlacks : h.LacksCount k) (hpos : 0 < h.ratingCount) : k < 12 := by
  apply Nat.lt_of_not_le
  intro hle
  have hlt := hlacks.2
  rw [Nat.sub_eq_zero_of_le hle, BigEndian.capacity] at hlt
  omega

/-- The bytes of the number of ratings that are written are zeros. -/
theorem LacksCount.take_encode (hlacks : h.LacksCount k) (hfits : h.Fits) (h12 : k ≤ 12) :
    (BigEndian.encode 4 h.ratingCount).take (k - 8) = List.replicate (k - 8) 0 := by
  have hfour := hfits.ratingCount_lt
  have hlt : h.ratingCount < BigEndian.capacity (4 - (k - 8)) := by
    by_cases h8 : 8 ≤ k
    · rw [show 4 - (k - 8) = 12 - k by omega]
      exact hlacks.2
    · rwa [show 4 - (k - 8) = 4 by omega]
  have hzeros : BigEndian.encode 4 0 = List.replicate 4 0 := rfl
  rw [(BigEndian.take_encode_eq_take_zero_iff hfour _).2 hlt, hzeros, List.take_replicate]
  congr 1
  omega

/-- A front that says nothing of its ratings is the header of a file without ratings. -/
theorem cut_eq_of_lacksCount (hfits : h.Fits) (hpos : 0 < h.ratingCount) (hlacks : h.LacksCount k) :
    h.cut k = (ofLayout (h.layoutOfFront k)).bytes := by
  have h12 := Nat.le_of_lt (hlacks.lt_twelve hpos)
  rw [cut, bytes_take_of_le hlacks.1 h12, hlacks.take_encode hfits h12, bytes_ofLayout,
    layoutOfFront]
  -- The word of flags may be missing, or written in part, or complete.
  have hplace : k = 6 ∨ k = 7 ∨ 8 ≤ k := by
    have h6 := hlacks.1
    omega
  rcases hplace with rfl | rfl | h8
  · cases h.layout.timestamps <;> rfl
  · cases h.layout.timestamps <;> rfl
  · rw [decide_eq_true h8, Bool.and_true, List.take_of_length_le, List.append_assoc,
      List.replicate_append_replicate]
    · congr 2
      rw [byteLength]
      omega
    · rw [BigEndian.length_encode]
      omega

end FileHeader

namespace Packing

/-- The finished file and the unfinished files have the same bytes behind the header. -/
theorem Holds.exists_finishUpTo {p : Packing} {ratings : List Rating} (h : p.Holds ratings) :
    ∃ file rest, p.finish = .ok file ∧ file.bytes.data.toList = p.header.bytes ++ rest ∧
      ∀ k ≤ FileHeader.byteLength, ∃ unfinished, p.finishUpTo k = .ok unfinished ∧
        unfinished.data.toList = p.header.cut k ++ rest := by
  obtain ⟨file, hfinish, -, -, hfile⟩ := h.finish
  rw [FileImage.bytes_of_trailing_eq_nil rfl, FileImage.body, ← h.header_eq, List.append_assoc,
    List.append_assoc] at hfile
  refine ⟨file, _, hfinish, hfile, fun k hk => ?_⟩
  obtain ⟨unfinished, hunfinished, hbytes⟩ := h.finishUpTo hk
  refine ⟨unfinished, hunfinished, ?_⟩
  simp only [hbytes, FileHeader.cut, List.append_assoc]

end Packing

end PackedRatings
