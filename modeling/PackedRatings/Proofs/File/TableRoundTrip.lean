import PackedRatings.Proofs.File.PackingCalls
import PackedRatings.Proofs.File.WordArithmetic

/-!
# Decoding a table undoes encoding it

The table of any map from keys to runs is read back from its bytes, whatever follows them, and
holds the entries of the map. A reader of tables asks for memory before it reads what it wants to
store, and a request for more bytes than an object may have stops the program. The requests come
after the checks of the sizes that the bytes declare, so none of them is ever too large.
-/
namespace PackedRatings

namespace Guarded

/-- The greatest number of bytes that one object may have. -/
def maxBytes : Nat := 0x7fffffffffffffff

/-- Asks for memory for `count` elements of `width` bytes each. -/
def room (count width : Nat) : Guarded Unit :=
  if count * width ≤ maxBytes then pure () else fault .overflow

theorem room_eq_pure {count width : Nat} (h : count * width ≤ maxBytes) :
    room count width = pure () :=
  if_pos h

/-- After a plain step only what the step returned matters. -/
theorem lift_bind_congr {α β : Type} {x : Except Failure α} {f g : α → Guarded β}
    (h : ∀ a, x = .ok a → f a = g a) : (lift x >>= f) = (lift x >>= g) := by
  cases x with
  | ok a => exact h a rfl
  | error failure => rfl

end Guarded

open Guarded

namespace RunTable

variable {rowCount : Nat}

/-- Reads one run into an array that holds `held` rows and is asked to make room for the run. -/
def allocatingRun (rowCount held : Nat) (bytes : List UInt8) :
    Guarded (List (Fin rowCount) × List UInt8) := do
  let (field, bytes) ← lift (readField "index_count" 4 bytes)
  let count := BigEndian.decodeInt32 field
  lift (Requirement.runLengthNonnegative.check (0 ≤ count))
  lift (Requirement.runFits.check (count.toNat ≤ bytes.length / 4))
  room (held + count.toNat) 4
  lift (readRows rowCount count.toNat bytes)

def allocatingRuns (rowCount : Nat) : (count : Nat) → List UInt8 →
    Guarded (FlatRuns rowCount count × List UInt8)
  | 0, bytes => pure (.empty, bytes)
  | count + 1, bytes => do
    let (runs, bytes) ← allocatingRuns rowCount count bytes
    let (run, bytes) ← allocatingRun rowCount runs.rows.size bytes
    let _ ← word (runs.rows.size + run.length)
    return (runs.push run, bytes)

/-- Reads a table from the start of `bytes` and returns it with its length in bytes. There is one
array for the keys and one for the offsets, both of words. -/
def allocatingParse (keyCount : Nat) (bytes : List UInt8) (rowCount : Nat) :
    Guarded (RunTable rowCount × Nat) := do
  lift (Requirement.keyCountFits.check (keyCount ≤ bytes.length / 12))
  room keyCount 8
  let (keys, rest) ← lift (readKeys none keyCount bytes)
  let keys ← lift ((KeyWindow.ofAscending keys).mapError fun failure =>
    .invalidFormat "index_keys" failure.message)
  let offsets ← word (keyCount + 1)
  room offsets 8
  let (runs, rest) ← allocatingRuns rowCount keys.length rest
  let consumed ← sub bytes.length rest.length
  return (⟨keys, runs⟩, consumed)

theorem allocatingRun_eq_lift {held : Nat} {bytes : List UInt8}
    (h : held * 4 + bytes.length ≤ maxBytes) :
    allocatingRun rowCount held bytes = lift (readRun rowCount bytes) := by
  rw [allocatingRun, readRun]
  apply lift_bind
  rintro ⟨field, rest⟩ hfield
  apply lift_bind
  intro _ _
  apply lift_bind
  intro _ hfits
  obtain ⟨rfl, -⟩ := readField_eq_ok_iff.1 hfield
  rw [Requirement.check_eq_ok_iff] at hfits
  rw [List.length_append] at h
  have hroom : (held + (BigEndian.decodeInt32 field).toNat) * 4 ≤ maxBytes := by omega
  rw [room_eq_pure hroom]
  rfl

theorem allocatingRuns_eq_guardedRuns {bytes : List UInt8} (hbytes : bytes.length ≤ maxBytes)
    (count : Nat) : allocatingRuns rowCount count bytes = guardedRuns rowCount count bytes := by
  have hword : bytes.length < UInt64.size := Nat.lt_of_le_of_lt hbytes (by decide)
  induction count with
  | zero => rfl
  | succ count ih =>
    rw [allocatingRuns, guardedRuns, ih, guardedRuns_eq_lift hword]
    apply lift_bind_congr
    rintro ⟨runs, rest⟩ hruns
    -- The rows that are held were read from the bytes before the rest, four bytes each.
    obtain rfl := readRuns_eq_ok hruns
    rw [List.length_append, length_runsBytes, FlatRuns.flatten_toList] at hbytes
    have hheld : runs.rows.size * 4 + rest.length ≤ maxBytes := by
      rw [← Array.length_toList]
      omega
    dsimp only
    rw [allocatingRun_eq_lift hheld]

/-- Every request for memory is met. -/
theorem allocatingParse_eq_guardedParse {bytes : List UInt8} (hbytes : bytes.length ≤ maxBytes)
    (keyCount : Nat) :
    allocatingParse keyCount bytes rowCount = guardedParse keyCount bytes rowCount := by
  rw [allocatingParse, guardedParse]
  apply lift_bind_congr
  intro _ hfits
  rw [Requirement.check_eq_ok_iff] at hfits
  have hkeys : keyCount * 8 ≤ maxBytes := by omega
  have hoffsets : (keyCount + 1) * 8 ≤ maxBytes := by
    simp only [maxBytes] at hbytes ⊢
    omega
  have hword : keyCount + 1 < UInt64.size := by
    have : maxBytes < UInt64.size := by decide
    omega
  rw [room_eq_pure hkeys, pure_bind]
  apply lift_bind_congr
  rintro ⟨keys, rest⟩ hread
  apply lift_bind_congr
  intro w _
  have hrest : rest.length ≤ maxBytes := by
    obtain ⟨-, -, rfl⟩ := readKeys_eq_ok_iff.1 hread
    rw [List.length_append] at hbytes
    omega
  rw [word_eq_pure hword, pure_bind, pure_bind, room_eq_pure hoffsets, pure_bind,
    allocatingRuns_eq_guardedRuns hrest]

theorem allocatingParse_eq_lift {bytes : List UInt8} (hbytes : bytes.length ≤ maxBytes)
    (keyCount : Nat) :
    allocatingParse keyCount bytes rowCount =
      lift (parse keyCount bytes rowCount >>= fun (t, rest) =>
        pure (t, bytes.length - rest.length)) := by
  rw [allocatingParse_eq_guardedParse hbytes]
  exact guardedParse_eq_lift (Nat.lt_of_le_of_lt hbytes (by decide)) keyCount

end RunTable

namespace RowsByKey

/-- The runs are shorter than 2³¹, and their positions are below 2³¹ and below `rowCount`. -/
def FitsTable (m : RowsByKey) (rowCount : Nat) : Prop :=
  ∀ key run, m.run? key = some run →
    run.length < 0x80000000 ∧ ∀ row ∈ run, row < rowCount ∧ row < 0x80000000

theorem fitsTable_iff {m : RowsByKey} {rowCount : Nat} :
    m.FitsTable rowCount ↔ ∀ entry ∈ m.runs,
      entry.2.length < 0x80000000 ∧ ∀ row ∈ entry.2, row < rowCount ∧ row < 0x80000000 := by
  simp only [FitsTable, run?, ← mem_runs_iff, Prod.forall]

theorem FitsTable.readable {m : RowsByKey} {rowCount : Nat} (h : m.FitsTable rowCount) :
    TableImage.Readable m.runs rowCount where
  ascending := m.keys_runs_pairwise
  runs := by
    intro entry hentry
    obtain ⟨hlength, hrows⟩ := fitsTable_iff.1 h entry hentry
    refine ⟨Nat.le_of_lt_succ hlength, fun row hrow => ?_⟩
    obtain ⟨hrange, hsmall⟩ := hrows row hrow
    exact ⟨hrange, Nat.le_of_lt_succ hsmall⟩

end RowsByKey

namespace RunTable

variable {rowCount : Nat}

/-- A table that shows the runs of a map finds under each key what the map has there. -/
theorem map_rowsOf? {t : RunTable rowCount} {m : RowsByKey} (himage : t.image = m.runs)
    (key : Int64) : (t.rowsOf? key).map (List.map Fin.val) = m.run? key := by
  apply Option.ext
  intro run
  rw [map_rowsOf?_eq_some_iff, himage, RowsByKey.mem_runs_iff, RowsByKey.run?]

/-- The table holds the map: its entries in ascending order of the keys, for each key that the map
has the run of the key, and all runs behind each other. -/
structure ReadsBack (t : RunTable rowCount) (m : RowsByKey) : Prop where
  entries : t.entries.map (fun entry => (entry.1, entry.2.map Fin.val)) = m.runs
  ascending : (t.entries.map Prod.fst).Pairwise (· < ·)
  rowsOf? : ∀ key, (t.rowsOf? key).map (List.map Fin.val) = m.run? key
  allRows : t.allRows.map Fin.val = m.runs.flatMap Prod.snd

theorem readsBack_of_image {t : RunTable rowCount} {m : RowsByKey} (himage : t.image = m.runs) :
    t.ReadsBack m where
  entries := himage
  ascending := by
    rw [map_fst_entries]
    exact t.keys.toList_pairwise
  rowsOf? := map_rowsOf? himage
  allRows := by
    rw [← positions_image, himage]
    rfl

/-- Encoding a map and decoding the bytes gives the map back and takes exactly these bytes, and
decoding bytes of any kind gives a table from their front or complains about them. -/
theorem parse_undoes_encodeRuns (rowCount : Nat) :
    (∀ m : RowsByKey, m.FitsTable rowCount → ∀ rest, ∃ bytes t,
      encodeRuns m.runs = .ok bytes ∧
      parse m.size (bytes ++ rest) rowCount = .ok (t, rest) ∧
      ((bytes ++ rest).length ≤ maxBytes →
        allocatingParse m.size (bytes ++ rest) rowCount = pure (t, bytes.length)) ∧
      t.ReadsBack m) ∧
    ∀ keyCount bytes, bytes.length ≤ maxBytes →
      (∃ t consumed, allocatingParse keyCount bytes rowCount = pure (t, consumed) ∧
        consumed ≤ bytes.length ∧
        parse keyCount bytes rowCount = .ok (t, bytes.drop consumed)) ∨
      ∃ element message,
        allocatingParse keyCount bytes rowCount = lift (.error (.invalidFormat element message)) ∧
        parse keyCount bytes rowCount = .error (.invalidFormat element message) := by
  constructor
  · intro m hfits rest
    have hreadable := hfits.readable
    have hencode := encodeRuns_eq_ok fun entry hentry => (hreadable.runs entry hentry).1
    obtain ⟨t, hparse, himage⟩ := exists_parse_eq_ok hreadable rest
    rw [m.length_runs] at hparse
    refine ⟨_, t, hencode, hparse, fun hlength => ?_, readsBack_of_image himage⟩
    rw [allocatingParse_eq_lift hlength, hparse, List.length_append]
    change lift (.ok (t, _ - _)) = _
    rw [Nat.add_sub_cancel_right]
    rfl
  · intro keyCount bytes hlength
    rw [allocatingParse_eq_lift hlength]
    cases hparse : parse keyCount bytes rowCount with
    | ok result =>
      obtain ⟨t, rest⟩ := result
      obtain ⟨-, rfl⟩ := parse_eq_ok hparse
      refine .inl ⟨t, t.image.bytes.length, ?_, ?_, ?_⟩
      · rw [List.length_append]
        change lift (.ok (t, _ - _)) = _
        rw [Nat.add_sub_cancel_right]
        rfl
      · rw [List.length_append]
        exact Nat.le_add_right _ _
      · rw [List.drop_left]
    | error failure =>
      obtain ⟨element, message, rfl⟩ := parse_refuses keyCount bytes failure hparse
      exact .inr ⟨element, message, rfl, rfl⟩

/-- Three keys, one of them without rows, and seven bytes behind their table. -/
theorem parse_undoes_encodeRuns_threeKeys :
    ∃ (m : RowsByKey) (bytes : List UInt8) (t : RunTable 3),
      m.runs = [(10, [0, 2]), (20, []), (30, [1])] ∧
      encodeRuns m.runs = .ok bytes ∧
      parse 3 (bytes ++ List.replicate 7 0xab) 3 = .ok (t, List.replicate 7 0xab) ∧
      t.rowsOf? 20 = some [] ∧ t.rowsOf? 15 = none ∧ t.allRows.map Fin.val = [0, 2, 1] := by
  let m : RowsByKey := ((((∅ : RowsByKey).insert 30 #[1]).insert 10 #[0, 2]).insert 20 #[])
  have hruns : m.runs = [(10, [0, 2]), (20, []), (30, [1])] := by decide +kernel
  have hfits : m.FitsTable 3 := by
    rw [RowsByKey.fitsTable_iff, hruns]
    decide
  obtain ⟨bytes, t, hencode, hparse, -, hback⟩ :=
    (parse_undoes_encodeRuns 3).1 m hfits (List.replicate 7 0xab)
  refine ⟨m, bytes, t, hruns, hencode, hparse, ?_, ?_, ?_⟩
  · have hrun : (t.rowsOf? 20).map (List.map Fin.val) = some [] :=
      (hback.rowsOf? 20).trans (by decide +kernel)
    obtain ⟨run, hrun, hnil⟩ := Option.map_eq_some_iff.1 hrun
    rw [hrun, List.map_eq_nil_iff.1 hnil]
  · rw [← Option.map_eq_none_iff, hback.rowsOf? 15]
    decide +kernel
  · rw [hback.allRows, hruns]
    rfl

end RunTable

end PackedRatings
