import Mathlib.Logic.ExistsUnique
import PackedRatings.Proofs.File.Loading
import PackedRatings.Proofs.File.PackingRun

/-!
# What every packing guarantees

However ratings were offered to a packing, its two indexes share out the rows that it took, each
to the run of its own user and the run of its own item. The limit on the number of ratings, which
is checked when a rating comes, bounds every row, every run and every key count, so each of them
fits its field and finishing cannot fail.
-/
namespace PackedRatings

namespace RowsByKey

variable {rows : RowsByKey} {keys : List Int64}

def run? (rows : RowsByKey) (key : Int64) : Option (List Nat) :=
  rows[key]?.map Array.toList

/-- Every place of `keys` is in exactly one run, which is that of its key, and nothing else is in
a run. -/
structure SharesOut (rows : RowsByKey) (keys : List Int64) : Prop where
  nonempty : ∀ key run, rows.run? key = some run → run ≠ []
  ascending : ∀ key run, rows.run? key = some run → run.Pairwise (· < ·)
  inRange : ∀ key run, rows.run? key = some run → ∀ row ∈ run, row < keys.length
  once : ∀ row, row < keys.length → ∃! key, ∃ run, rows.run? key = some run ∧ row ∈ run
  own : ∀ row key, keys[row]? = some key → ∃ run, rows.run? key = some run ∧ row ∈ run

theorem Indexes.run?_eq_some_iff (h : rows.Indexes keys) {key : Int64} {run : List Nat} :
    rows.run? key = some run ↔ key ∈ keys ∧ run = places keys key := by
  rw [run?, h key]
  by_cases hkey : key ∈ keys
  · simp [hkey, eq_comm]
  · simp [hkey]

/-- A row is in the run of the key that stands at its place. -/
theorem Indexes.mem_run_iff (h : rows.Indexes keys) {key : Int64} {row : Nat} :
    (∃ run, rows.run? key = some run ∧ row ∈ run) ↔ keys[row]? = some key := by
  simp only [h.run?_eq_some_iff, ← mem_places]
  constructor
  · rintro ⟨_, ⟨-, rfl⟩, hrow⟩
    exact hrow
  · intro hrow
    exact ⟨_, ⟨List.mem_of_getElem? (mem_places.1 hrow), rfl⟩, hrow⟩

theorem Indexes.sharesOut (h : rows.Indexes keys) : rows.SharesOut keys where
  nonempty := by
    intro key run hrun
    obtain ⟨hkey, rfl⟩ := h.run?_eq_some_iff.1 hrun
    obtain ⟨row, hrow⟩ := List.mem_iff_getElem?.1 hkey
    exact List.ne_nil_of_mem (mem_places.2 hrow)
  ascending := by
    intro key run hrun
    rw [(h.run?_eq_some_iff.1 hrun).2]
    exact places_pairwise keys key
  inRange := by
    intro key run hrun row hrow
    exact (List.getElem?_eq_some_iff.1 (h.mem_run_iff.1 ⟨run, hrun, hrow⟩)).1
  once := by
    intro row hrow
    simp only [h.mem_run_iff, List.getElem?_eq_getElem hrow, Option.some.injEq]
    exact existsUnique_eq'
  own := by
    intro row key hkey
    exact h.mem_run_iff.2 hkey

end RowsByKey

/-- Four bytes keep the number, with and without a sign, and so does a field of a file. -/
structure FitsInt32 (n : Nat) : Prop where
  toNat : (UInt32.ofNat n).toNat = n
  toInt : (UInt32.ofNat n).toInt32.toInt = n
  field : BigEndian.decodeInt32 (BigEndian.encode 4 n) = n

theorem fitsInt32_of_le {n : Nat} (h : n ≤ FileHeader.maxCount) : FitsInt32 n := by
  have hlt : n < BigEndian.capacity 4 := Nat.lt_of_le_of_lt h (by decide)
  have hfield := BigEndian.decodeInt32_encode h
  refine ⟨UInt32.toNat_ofNat_of_lt' hlt, ?_, hfield⟩
  rw [BigEndian.decodeInt32, BigEndian.decode_encode, Nat.mod_eq_of_lt hlt] at hfield
  exact hfield

namespace RowsByKey

variable {rows : RowsByKey} {keys : List Int64}

/-- The lengths of the runs and their rows fit their fields, and the table of all runs is written
without a failure. -/
structure Writable (rows : RowsByKey) : Prop where
  fields : ∀ key run, rows.run? key = some run →
    FitsInt32 run.length ∧ ∀ row ∈ run, FitsInt32 row
  table : ∃ bytes, RunTable.encodeRuns rows.runs = .ok bytes

theorem Indexes.writable (h : rows.Indexes keys) (hle : keys.length ≤ FileHeader.maxCount) :
    rows.Writable where
  fields := by
    intro key run hrun
    obtain ⟨-, rfl⟩ := h.run?_eq_some_iff.1 hrun
    constructor
    · exact fitsInt32_of_le (Nat.le_trans (length_places_le keys key) hle)
    · intro row hrow
      have hlt := h.sharesOut.inRange key _ hrun row hrow
      exact fitsInt32_of_le (Nat.le_trans (Nat.le_of_lt hlt) hle)
  table := by
    refine ⟨_, RunTable.encodeRuns_eq_ok ?_⟩
    rintro ⟨key, run⟩ hrun
    obtain ⟨-, rfl⟩ := h.mem_runs_iff.1 hrun
    exact Nat.le_trans (length_places_le keys key) hle

end RowsByKey

namespace Packing

variable {p : Packing} {ratings : List Rating}

/-- What a packing that took `ratings` guarantees: its rows are shared out, everything fits the
field that it is written to, and finishing gives a file of this length. -/
structure Guarantees (p : Packing) (ratings : List Rating) : Prop where
  count : p.count = ratings.length
  count_le : p.count ≤ 0x7fffffff
  users : p.users.SharesOut (ratings.map Rating.user)
  items : p.items.SharesOut (ratings.map Rating.item)
  userTable : p.users.Writable
  itemTable : p.items.Writable
  ratingCount : FitsInt32 p.header.ratingCount
  userCount : FitsInt32 p.header.userCount
  itemCount : FitsInt32 p.header.itemCount
  sectionLength : (BigEndian.decodeInt64 (BigEndian.encode 8 p.header.sectionLength)).toInt =
    p.header.sectionLength
  headerBytes : ∃ bytes, p.header.encode = .ok bytes
  finish : ∃ file, p.finish = .ok file ∧ file.bytes.size =
    28 + p.count * p.layout.rowWidth + 12 * ((ratings.map Rating.user).eraseDups.length +
      (ratings.map Rating.item).eraseDups.length) + 8 * p.count

/-- The tables take twelve bytes for each key and four for each row. -/
theorem Holds.length_image (h : p.Holds ratings) : (p.image ratings).bytes.length =
    28 + p.count * p.layout.rowWidth + 12 * ((ratings.map Rating.user).eraseDups.length +
      (ratings.map Rating.item).eraseDups.length) + 8 * p.count := by
  have hbody := h.wellFormed_image.length_body
  have husers : (p.image ratings).users.bytes.length =
      12 * (ratings.map Rating.user).eraseDups.length + 4 * p.count := by
    rw [TableImage.length_bytes, h.wellFormed_image.users.complete, ← h.users.length_runs_eq,
      h.count]
    rfl
  have hitems : (p.image ratings).items.bytes.length =
      12 * (ratings.map Rating.item).eraseDups.length + 4 * p.count := by
    rw [TableImage.length_bytes, h.wellFormed_image.items.complete, ← h.items.length_runs_eq,
      h.count]
    rfl
  have hoffset : (p.image ratings).header.indexOffset = 28 + p.count * p.layout.rowWidth := by
    rw [← h.header_eq]
    rfl
  rw [hoffset, husers, hitems] at hbody
  rw [FileImage.bytes_of_trailing_eq_nil rfl, hbody]
  omega

theorem Holds.guarantees (h : p.Holds ratings) : p.Guarantees ratings := by
  have hle : p.count ≤ FileHeader.maxCount := h.count.symm ▸ h.count_le
  have hfits : p.header.Fits := h.header_eq ▸ h.wellFormed_image.header
  obtain ⟨file, hfinish, -, -, hbytes⟩ := h.finish
  have hsize := h.length_image
  rw [← hbytes, length_data_toList] at hsize
  constructor
  · exact h.count
  · exact hle
  · exact h.users.sharesOut
  · exact h.items.sharesOut
  · apply h.users.writable
    rw [List.length_map]
    exact h.count_le
  · apply h.items.writable
    rw [List.length_map]
    exact h.count_le
  · exact fitsInt32_of_le hfits.ratingCount_le
  · exact fitsInt32_of_le hfits.userCount_le
  · exact fitsInt32_of_le hfits.itemCount_le
  · exact (BigEndian.toInt_decodeInt64_eq_iff (BigEndian.length_encode 8 _)
      (FileHeader.sectionLength_lt hfits)).2 rfl
  · exact ⟨_, FileHeader.encode_eq_ok_iff.2 ⟨hfits, rfl⟩⟩
  · exact ⟨file, hfinish, hsize⟩

/-- A call that offers ratings to a packing. -/
inductive Call where
  | add (rating : Rating)
  | addAll (ratings : List Rating)

namespace Call

def offered : Call → List Rating
  | add rating => [rating]
  | addAll ratings => ratings

def make (p : Packing) : Call → Packing × Option Failure
  | add rating => p.add rating
  | addAll ratings => p.addAll ratings

theorem make_eq_addAll (p : Packing) (call : Call) : call.make p = p.addAll call.offered := by
  cases call with
  | add rating =>
    rcases hadd : p.add rating with ⟨q, _ | failure⟩
    · simp [make, offered, Packing.addAll, hadd]
    · simp [make, offered, Packing.addAll, hadd]
  | addAll ratings => rfl

end Call

/-- The packing after calls one after the other, some of which may be refused. -/
def run (p : Packing) : List Call → Packing
  | [] => p
  | call :: calls => (call.make p).1.run calls

/-- The ratings that are taken of those that are offered: all before the first refusal. -/
def accepted (p : Packing) : List Rating → List Rating
  | [] => []
  | rating :: ratings =>
    match p.add rating with
    | (p, none) => rating :: p.accepted ratings
    | (_, some _) => []

def taken (p : Packing) : List Call → List Rating
  | [] => []
  | call :: calls => p.accepted call.offered ++ (call.make p).1.taken calls

theorem accepted_prefix (p : Packing) (ratings : List Rating) :
    p.accepted ratings <+: ratings := by
  induction ratings generalizing p with
  | nil => exact List.prefix_rfl
  | cons rating ratings ih =>
    rcases hadd : p.add rating with ⟨q, _ | failure⟩
    · simp only [accepted, hadd]
      exact List.cons_prefix_cons.2 ⟨rfl, ih q⟩
    · simp only [accepted, hadd]
      exact List.nil_prefix

/-- Offering just what is accepted leads to the same packing, without a refusal. -/
theorem addAll_accepted (p : Packing) (ratings : List Rating) :
    p.addAll (p.accepted ratings) = ((p.addAll ratings).1, none) := by
  induction ratings generalizing p with
  | nil => rfl
  | cons rating ratings ih =>
    rcases hadd : p.add rating with ⟨q, _ | failure⟩
    · simp only [accepted, Packing.addAll, hadd]
      exact ih q
    · obtain ⟨rfl, -⟩ := add_eq_some_iff.1 hadd
      simp only [accepted, Packing.addAll, hadd]

theorem Holds.run {before : List Rating} (h : p.Holds before) (calls : List Call) :
    (p.run calls).Holds (before ++ p.taken calls) ∧ (p.run calls).layout = p.layout := by
  induction calls generalizing p before with
  | nil =>
    rw [taken, List.append_nil]
    exact ⟨h, rfl⟩
  | cons call calls ih =>
    obtain ⟨hholds, -, hlayout⟩ := h.addAll (p.addAll_accepted call.offered)
    rw [← call.make_eq_addAll] at hholds hlayout
    obtain ⟨hrest, hrestLayout⟩ := ih hholds
    rw [List.append_assoc] at hrest
    exact ⟨hrest, hrestLayout.trans hlayout⟩

theorem taken_sublist (p : Packing) (calls : List Call) :
    (p.taken calls).Sublist (calls.flatMap Call.offered) := by
  induction calls generalizing p with
  | nil => exact List.Sublist.slnil
  | cons call calls ih =>
    rw [taken, List.flatMap_cons]
    exact (p.accepted_prefix call.offered).sublist.append (ih _)

/-- Whatever is called on a new packing, it guarantees its file for the ratings that it took. -/
theorem run_guarantees (path : String) (layout : RowLayout) (calls : List Call) :
    ((start path layout).run calls).Guarantees ((start path layout).taken calls) ∧
      ((start path layout).run calls).layout = layout ∧
      ((start path layout).taken calls).Sublist (calls.flatMap Call.offered) := by
  obtain ⟨hholds, hlayout⟩ := (holds_start path layout).run calls
  exact ⟨hholds.guarantees, hlayout, taken_sublist _ calls⟩

/-- A rating without a timestamp is refused, and with it what was offered after it in one call. -/
example : (start "ratings.bin" ⟨true⟩).taken
    [.addAll [⟨7, 3, 0, some 30⟩, ⟨5, 3, 0, none⟩, ⟨5, 4, 0, some 10⟩], .add ⟨7, 4, 0, some 20⟩] =
      [⟨7, 3, 0, some 30⟩, ⟨7, 4, 0, some 20⟩] := by
  rfl

end Packing

end PackedRatings
