import Mathlib.Data.Set.List
import PackedRatings.File.RunTable
import PackedRatings.Proofs.File.Fields
import PackedRatings.Proofs.File.Image
import PackedRatings.Proofs.Keys.Construction
import PackedRatings.Proofs.Outcome

/-!
# Reading and writing an index table

Each reader succeeds exactly on the bytes of what it returns, followed by the rest that it
leaves. So a table is read exactly from its own bytes, whatever follows them.
-/
namespace PackedRatings

namespace RunTable

variable {rowCount : Nat}

theorem readField_eq_ok_iff {element : String} {width : Nat} {bytes field rest : List UInt8} :
    readField element width bytes = .ok (field, rest) ↔
      bytes = field ++ rest ∧ field.length = width := by
  rw [← BigEndian.split?_eq_some_iff, readField]
  cases BigEndian.split? width bytes with
  | none => simp
  | some result => simp

theorem pairwise_lt_cons_cons {a b : Int64} {l : List Int64} :
    (a :: b :: l).Pairwise (· < ·) ↔ a < b ∧ (b :: l).Pairwise (· < ·) := by
  rw [List.pairwise_cons]
  constructor
  · rintro ⟨habove, hrest⟩
    exact ⟨habove b List.mem_cons_self, hrest⟩
  · rintro ⟨hab, hrest⟩
    refine ⟨fun c hc => ?_, hrest⟩
    rcases List.mem_cons.1 hc with rfl | hc
    · exact hab
    · exact Int64.lt_trans hab ((List.pairwise_cons.1 hrest).1 c hc)

theorem pairwise_lt_toList_append_cons {previous : Option Int64} {key : Int64}
    {keys : List Int64} :
    (previous.toList ++ key :: keys).Pairwise (· < ·) ↔
      previous.all (· < key) = true ∧ ((some key).toList ++ keys).Pairwise (· < ·) := by
  cases previous with
  | none => simp
  | some p => simpa using pairwise_lt_cons_cons

theorem readKeys_eq_ok_iff {previous : Option Int64} {count : Nat} {bytes rest : List UInt8}
    {keys : List Int64} :
    readKeys previous count bytes = .ok (keys, rest) ↔
      keys.length = count ∧ (previous.toList ++ keys).Pairwise (· < ·) ∧
        bytes = keys.flatMap BigEndian.encodeInt64 ++ rest := by
  induction count generalizing previous bytes keys rest with
  | zero =>
    cases keys with
    | nil => cases previous <;> simp [readKeys]
    | cons key keys => simp [readKeys]
  | succ count ih =>
    simp only [readKeys, bind_eq_ok_iff, Requirement.check_eq_ok_iff, exists_const, Prod.exists,
      readField_eq_ok_iff, ih, pure_eq_ok_iff, Prod.mk.injEq]
    constructor
    · rintro ⟨field, _, ⟨rfl, hfield⟩, hkey, keys, _, ⟨hlength, hkeys, rfl⟩, rfl, rfl⟩
      refine ⟨by simp [hlength], pairwise_lt_toList_append_cons.2 ⟨hkey, hkeys⟩, ?_⟩
      rw [List.flatMap_cons, BigEndian.encodeInt64_decodeInt64 hfield, List.append_assoc]
    · rintro ⟨hlength, hkeys, rfl⟩
      cases keys with
      | nil => simp at hlength
      | cons key keys =>
        obtain ⟨hkey, hkeys⟩ := pairwise_lt_toList_append_cons.1 hkeys
        refine ⟨BigEndian.encodeInt64 key, keys.flatMap BigEndian.encodeInt64 ++ rest,
          ⟨by simp, by simp⟩, ?_, keys, rest, ⟨by simpa using hlength, ?_, rfl⟩, ?_, rfl⟩
        · rwa [BigEndian.decodeInt64_encodeInt64]
        · rwa [BigEndian.decodeInt64_encodeInt64]
        · rw [BigEndian.decodeInt64_encodeInt64]

theorem readRows_eq_ok_iff {count : Nat} {bytes rest : List UInt8} {rows : List (Fin rowCount)} :
    readRows rowCount count bytes = .ok (rows, rest) ↔
      rows.length = count ∧ (∀ row ∈ rows, row.val ≤ FileHeader.maxCount) ∧
        bytes = (rows.map Fin.val).flatMap (BigEndian.encode 4) ++ rest := by
  induction count generalizing bytes rows rest with
  | zero =>
    cases rows with
    | nil => simp [readRows]
    | cons row rows => simp [readRows]
  | succ count ih =>
    simp only [readRows, bind_eq_ok_iff, Prod.exists, readField_eq_ok_iff]
    constructor
    · rintro ⟨field, after, ⟨rfl, hfield⟩, hread⟩
      split at hread
      · rename_i hrange
        simp only [bind_eq_ok_iff, ih, pure_eq_ok_iff, Prod.exists, Prod.mk.injEq] at hread
        rcases hread with ⟨rows, _, ⟨hlength, hrows, rfl⟩, rfl, rfl⟩
        obtain ⟨hle, hbytes⟩ := BigEndian.toNat_decodeInt32 hfield hrange.1
        refine ⟨by simp [hlength], ?_, ?_⟩
        · rintro row hrow
          rcases List.mem_cons.1 hrow with rfl | hrow
          · exact hle
          · exact hrows row hrow
        · rw [List.map_cons, List.flatMap_cons, ← hbytes, List.append_assoc]
      · cases hread
    · rintro ⟨hlength, hrows, rfl⟩
      cases rows with
      | nil => simp at hlength
      | cons row rows =>
        have hrow := BigEndian.decodeInt32_encode (hrows row List.mem_cons_self)
        refine ⟨BigEndian.encode 4 row,
          (rows.map Fin.val).flatMap (BigEndian.encode 4) ++ rest, ⟨by simp, by simp⟩, ?_⟩
        have hval : (BigEndian.decodeInt32 (BigEndian.encode 4 row)).toNat = row := by
          rw [hrow, Int.toNat_natCast]
        have hrange : 0 ≤ BigEndian.decodeInt32 (BigEndian.encode 4 row) ∧
            (BigEndian.decodeInt32 (BigEndian.encode 4 row)).toNat < rowCount :=
          ⟨by rw [hrow]; exact Int.natCast_nonneg _, by rw [hval]; exact row.isLt⟩
        rw [dif_pos hrange]
        simp only [bind_eq_ok_iff, ih, pure_eq_ok_iff, Prod.exists, Prod.mk.injEq]
        refine ⟨rows, rest, ⟨by simpa using hlength,
          fun r hr => hrows r (List.mem_cons_of_mem _ hr), rfl⟩, ?_, rfl⟩
        congr 1
        exact Fin.ext hval

theorem readRun_eq_ok_iff {bytes rest : List UInt8} {run : List (Fin rowCount)} :
    readRun rowCount bytes = .ok (run, rest) ↔
      run.length ≤ FileHeader.maxCount ∧ (∀ row ∈ run, row.val ≤ FileHeader.maxCount) ∧
        bytes = TableImage.runBytes (run.map Fin.val) ++ rest := by
  simp only [readRun, bind_eq_ok_iff, Requirement.check_eq_ok_iff, exists_const, Prod.exists,
    readField_eq_ok_iff, readRows_eq_ok_iff]
  constructor
  · rintro ⟨field, _, ⟨rfl, hfield⟩, hnonneg, -, hlength, hrows, rfl⟩
    rcases BigEndian.toNat_decodeInt32 hfield hnonneg with ⟨hle, hbytes⟩
    rw [← hlength] at hle hbytes
    refine ⟨hle, hrows, ?_⟩
    rw [TableImage.runBytes, List.length_map, ← hbytes, List.append_assoc]
  · rintro ⟨hle, hrows, rfl⟩
    have hcount := BigEndian.decodeInt32_encode hle
    refine ⟨BigEndian.encode 4 run.length,
      (run.map Fin.val).flatMap (BigEndian.encode 4) ++ rest, ⟨?_, by simp⟩, ?_, ?_, ?_, hrows, rfl⟩
    · rw [TableImage.runBytes, List.length_map, List.append_assoc]
    · rw [hcount]
      exact Int.natCast_nonneg _
    · rw [hcount, Int.toNat_natCast, List.length_append, TableImage.length_flatMap_encode,
        List.length_map]
      omega
    · rw [hcount, Int.toNat_natCast]

def runsBytes (runs : List (List (Fin rowCount))) : List UInt8 :=
  (runs.map (List.map Fin.val)).flatMap TableImage.runBytes

theorem readRuns_eq_ok {count : Nat} {bytes rest : List UInt8} {runs : FlatRuns rowCount count}
    (h : readRuns rowCount count bytes = .ok (runs, rest)) :
    bytes = runsBytes runs.toList ++ rest := by
  induction count generalizing rest with
  | zero =>
    cases h
    simp [runsBytes]
  | succ count ih =>
    simp only [readRuns, bind_eq_ok_iff, pure_eq_ok_iff, Prod.exists, Prod.mk.injEq,
      readRun_eq_ok_iff] at h
    obtain ⟨runs, _, hruns, run, _, ⟨-, -, rfl⟩, rfl, rfl⟩ := h
    obtain rfl := ih hruns
    simp [runsBytes]

/-- Runs that were read are read in the same way in front of any other rest. -/
theorem readRuns_append {count : Nat} {bytes rest : List UInt8} {runs : FlatRuns rowCount count}
    (h : readRuns rowCount count bytes = .ok (runs, rest)) (rest' : List UInt8) :
    readRuns rowCount count (runsBytes runs.toList ++ rest') = .ok (runs, rest') := by
  induction count generalizing rest rest' with
  | zero =>
    cases h
    simp [runsBytes, readRuns]
  | succ count ih =>
    simp only [readRuns, bind_eq_ok_iff, pure_eq_ok_iff, Prod.exists, Prod.mk.injEq,
      readRun_eq_ok_iff] at h ⊢
    obtain ⟨runs, _, hruns, run, _, ⟨hlength, hrows, rfl⟩, rfl, rfl⟩ := h
    refine ⟨runs, TableImage.runBytes (run.map Fin.val) ++ rest', ?_, run, rest',
      ⟨hlength, hrows, rfl⟩, rfl, rfl⟩
    rw [← ih hruns]
    simp [runsBytes]

theorem exists_readRuns_eq_ok {count : Nat} {runs : List (List (Fin rowCount))}
    (hcount : runs.length = count)
    (hbounds : ∀ run ∈ runs, run.length ≤ FileHeader.maxCount ∧
      ∀ row ∈ run, row.val ≤ FileHeader.maxCount) (rest : List UInt8) :
    ∃ stored, readRuns rowCount count (runsBytes runs ++ rest) = .ok (stored, rest) ∧
      stored.toList = runs := by
  induction count generalizing runs rest with
  | zero =>
    obtain rfl : runs = [] := List.length_eq_zero_iff.1 hcount
    exact ⟨.empty, rfl, FlatRuns.toList_empty⟩
  | succ count ih =>
    -- The reader takes the last run after all others, so the list is taken apart at its end.
    obtain ⟨runs, run, rfl⟩ : ∃ before last, runs = before ++ [last] :=
      ⟨runs.dropLast, _,
        (List.dropLast_concat_getLast (List.ne_nil_of_length_eq_add_one hcount)).symm⟩
    have hrun := hbounds run (by simp)
    obtain ⟨stored, hread, htoList⟩ := ih (by simpa using hcount)
      (fun r hr => hbounds r (List.mem_append_left _ hr))
      (TableImage.runBytes (run.map Fin.val) ++ rest)
    refine ⟨stored.push run, ?_, by rw [FlatRuns.toList_push, htoList]⟩
    simp only [readRuns, bind_eq_ok_iff, pure_eq_ok_iff, Prod.exists, Prod.mk.injEq,
      readRun_eq_ok_iff]
    refine ⟨stored, _, ?_, run, rest, ⟨hrun.1, hrun.2, rfl⟩, rfl, rfl⟩
    rw [← hread]
    simp [runsBytes]

def image (t : RunTable rowCount) : TableImage :=
  t.entries.map fun entry => (entry.1, entry.2.map Fin.val)

theorem length_keys_toList (t : RunTable rowCount) :
    t.keys.toList.length = t.runs.toList.length := by
  rw [KeyWindow.length_toList, FlatRuns.length_toList]

theorem map_fst_entries (t : RunTable rowCount) : t.entries.map Prod.fst = t.keys.toList :=
  List.map_fst_zip (Nat.le_of_eq t.length_keys_toList)

theorem map_snd_entries (t : RunTable rowCount) : t.entries.map Prod.snd = t.runs.toList :=
  List.map_snd_zip (Nat.le_of_eq t.length_keys_toList.symm)

theorem flatMap_entries (t : RunTable rowCount) : t.entries.flatMap Prod.snd = t.allRows := by
  rw [List.flatMap_def, map_snd_entries, FlatRuns.flatten_toList, allRows]

@[simp] theorem keys_image (t : RunTable rowCount) : t.image.keys = t.keys.toList := by
  rw [TableImage.keys, image, List.map_map]
  exact t.map_fst_entries

theorem map_snd_image (t : RunTable rowCount) :
    t.image.map Prod.snd = t.runs.toList.map (List.map Fin.val) := by
  rw [← map_snd_entries, image, List.map_map, List.map_map]
  rfl

@[simp] theorem positions_image (t : RunTable rowCount) :
    t.image.positions = t.allRows.map Fin.val := by
  rw [TableImage.positions, image, List.flatMap_map, ← flatMap_entries, List.map_flatMap]

theorem length_positions_image (t : RunTable rowCount) :
    t.image.positions.length = t.allRows.length := by
  rw [positions_image, List.length_map]

@[simp] theorem length_image (t : RunTable rowCount) : t.image.length = t.keys.length := by
  rw [← KeyWindow.length_toList, ← keys_image, TableImage.keys, List.length_map]

theorem bytes_image (t : RunTable rowCount) :
    t.image.bytes = t.keys.toList.flatMap BigEndian.encodeInt64 ++ runsBytes t.runs.toList := by
  rw [TableImage.bytes, keys_image, runsBytes, ← map_snd_image, List.flatMap_map]

/-- A table is shown by its keys and its runs. -/
theorem image_eq_of_parts {t : RunTable rowCount} {image : TableImage}
    (hkeys : t.keys.toList = image.keys)
    (hruns : t.runs.toList.map (List.map Fin.val) = image.map Prod.snd) : t.image = image := by
  have hzip : ∀ l : TableImage, l = l.keys.zip (l.map Prod.snd) := fun l => by
    rw [TableImage.keys, List.zip_map', List.map_id']
  rw [hzip t.image, hzip image, keys_image, map_snd_image, hkeys, hruns]

/-- A table is read from its keys and from bytes that its runs are read from. -/
theorem parse_eq_ok_iff {keyCount : Nat} {bytes rest : List UInt8} {t : RunTable rowCount} :
    parse keyCount bytes rowCount = .ok (t, rest) ↔
      KeyWindow.ofAscending t.keys.toList = .ok t.keys ∧ t.keys.length = keyCount ∧
        ∃ after, bytes = t.keys.toList.flatMap BigEndian.encodeInt64 ++ after ∧
          readRuns rowCount t.keys.length after = .ok (t.runs, rest) := by
  simp only [parse, bind_eq_ok_iff, Requirement.check_eq_ok_iff, exists_const, Prod.exists,
    readKeys_eq_ok_iff, pure_eq_ok_iff, Prod.mk.injEq]
  constructor
  · rintro ⟨-, keys, after, ⟨hlength, hascending, rfl⟩, w, hw, runs, _, hruns, rfl, rfl⟩
    have hascending : keys.Pairwise (· < ·) := hascending
    obtain rfl : w = .whole keys hascending := by
      rw [KeyWindow.ofAscending_eq_ok hascending] at hw
      exact (Except.ok.inj hw).symm
    have hkeys := KeyWindow.toList_whole keys hascending
    refine ⟨?_, ?_, after, by rw [hkeys], hruns⟩
    · rw [hkeys, KeyWindow.ofAscending_eq_ok hascending]
    · rw [← KeyWindow.length_toList, hkeys, hlength]
  · rintro ⟨hkeys, hlength, after, rfl, hruns⟩
    refine ⟨?_, t.keys.toList, after, ⟨by simp [hlength], t.keys.toList_pairwise, rfl⟩, t.keys, ?_,
      t.runs, rest, hruns, rfl, rfl⟩
    · -- Each key comes with the length of its run.
      obtain rfl := readRuns_eq_ok hruns
      rw [← List.append_assoc, ← bytes_image, List.length_append, TableImage.length_bytes,
        length_image]
      omega
    · rw [hkeys]
      rfl

theorem parse_eq_ok {keyCount : Nat} {bytes rest : List UInt8} {t : RunTable rowCount}
    (h : parse keyCount bytes rowCount = .ok (t, rest)) :
    t.keys.length = keyCount ∧ bytes = t.image.bytes ++ rest := by
  obtain ⟨-, hlength, after, rfl, hruns⟩ := parse_eq_ok_iff.1 h
  obtain rfl := readRuns_eq_ok hruns
  exact ⟨hlength, by rw [bytes_image, List.append_assoc]⟩

/-- A table that was read is read in the same way in front of any other rest. -/
theorem parse_append {keyCount : Nat} {bytes rest : List UInt8} {t : RunTable rowCount}
    (h : parse keyCount bytes rowCount = .ok (t, rest)) (rest' : List UInt8) :
    parse keyCount (t.image.bytes ++ rest') rowCount = .ok (t, rest') := by
  obtain ⟨hkeys, hlength, after, -, hruns⟩ := parse_eq_ok_iff.1 h
  refine parse_eq_ok_iff.2 ⟨hkeys, hlength, runsBytes t.runs.toList ++ rest', ?_,
    readRuns_append hruns rest'⟩
  rw [bytes_image, List.append_assoc]

/-- The bytes of a readable table are read, whatever follows them. -/
theorem exists_parse_eq_ok {image : TableImage} (himage : image.Readable rowCount)
    (rest : List UInt8) :
    ∃ t, parse image.length (image.bytes ++ rest) rowCount = .ok (t, rest) ∧
      t.image = image := by
  obtain ⟨runs, hruns⟩ : image.map Prod.snd ∈ Set.range (List.map (List.map Fin.val)) := by
    rw [Set.range_list_map, Set.range_list_map]
    intro run hrun row hrow
    obtain ⟨entry, hentry, rfl⟩ := List.mem_map.1 hrun
    exact ⟨⟨row, ((himage.runs entry hentry).2 row hrow).1⟩, rfl⟩
  have hbounds : ∀ run ∈ runs, run.length ≤ FileHeader.maxCount ∧
      ∀ row ∈ run, row.val ≤ FileHeader.maxCount := by
    intro run hrun
    have hmem : run.map Fin.val ∈ image.map Prod.snd := hruns ▸ List.mem_map_of_mem hrun
    obtain ⟨entry, hentry, hsnd⟩ := List.mem_map.1 hmem
    obtain ⟨hlength, hrows⟩ := himage.runs entry hentry
    rw [hsnd] at hlength hrows
    rw [List.length_map] at hlength
    exact ⟨hlength, fun row hrow => (hrows row (List.mem_map_of_mem hrow)).2⟩
  let w := KeyWindow.whole image.keys himage.ascending
  have hcount : runs.length = w.length := by
    rw [← KeyWindow.length_toList, KeyWindow.toList_whole, TableImage.keys, List.length_map,
      ← List.length_map (f := List.map Fin.val), hruns, List.length_map]
  rcases exists_readRuns_eq_ok hcount hbounds rest with ⟨stored, hread, hstored⟩
  have hbytes : image.bytes = image.keys.flatMap BigEndian.encodeInt64 ++ runsBytes runs := by
    rw [TableImage.bytes, runsBytes, hruns, List.flatMap_map]
  have hkeys : w.toList = image.keys := KeyWindow.toList_whole _ _
  refine ⟨⟨w, stored⟩, parse_eq_ok_iff.2 ⟨?_, ?_, runsBytes runs ++ rest, ?_, hread⟩,
    image_eq_of_parts hkeys (by rw [hstored, hruns])⟩
  · rw [hkeys, KeyWindow.ofAscending_eq_ok himage.ascending]
  · rw [← KeyWindow.length_toList, hkeys, TableImage.keys, List.length_map]
  · rw [hbytes, hkeys, List.append_assoc]

/-- The rows of a key are those that the table lists under it. -/
theorem rowsOf?_eq_some_iff {t : RunTable rowCount} {key : Int64} {rows : List (Fin rowCount)} :
    t.rowsOf? key = some rows ↔ (key, rows) ∈ t.entries := by
  rw [rowsOf?, Option.map_eq_some_iff, entries, List.mem_iff_getElem]
  constructor
  · rintro ⟨i, hi, rfl⟩
    obtain rfl := KeyWindow.position?_eq_some_iff.1 hi
    exact ⟨i, by simp, by simp⟩
  · rintro ⟨i, hi, hentry⟩
    have hlt : i < t.keys.length := by simpa using hi
    rw [List.getElem_zip, KeyWindow.getElem_toList, FlatRuns.getElem_toList,
      Prod.mk.injEq] at hentry
    exact ⟨⟨i, hlt⟩, KeyWindow.position?_eq_some_iff.2 hentry.1, hentry.2⟩

/-- The same, told from what the table shows. -/
theorem map_rowsOf?_eq_some_iff {t : RunTable rowCount} {key : Int64} {run : List Nat} :
    (t.rowsOf? key).map (List.map Fin.val) = some run ↔ (key, run) ∈ t.image := by
  simp only [Option.map_eq_some_iff, rowsOf?_eq_some_iff, image, List.mem_map, Prod.exists,
    Prod.mk.injEq]
  constructor
  · rintro ⟨rows, hentry, rfl⟩
    exact ⟨key, rows, hentry, rfl, rfl⟩
  · rintro ⟨_, rows, hentry, rfl, rfl⟩
    exact ⟨rows, hentry, rfl⟩

theorem readField_refuses (element : String) (width : Nat) (bytes : List UInt8) :
    RefusesFormatOnly (readField element width bytes) := by
  rw [readField]
  split
  · exact .ok _
  · exact .error _ _

theorem readKeys_refuses (previous : Option Int64) (count : Nat) (bytes : List UInt8) :
    RefusesFormatOnly (readKeys previous count bytes) := by
  induction count generalizing previous bytes with
  | zero => exact .ok _
  | succ count ih =>
    exact .bind (readField_refuses _ _ _) fun _ _ => .bind (.check rfl) fun _ _ =>
      .bind (ih _ _) fun _ _ => .ok _

theorem readRows_refuses (count : Nat) (bytes : List UInt8) :
    RefusesFormatOnly (readRows rowCount count bytes) := by
  induction count generalizing bytes with
  | zero => exact .ok _
  | succ count ih =>
    refine .bind (readField_refuses _ _ _) fun (field, rest) _ => ?_
    change RefusesFormatOnly (dite _ _ _)
    split
    · exact .bind (ih _) fun _ _ => .ok _
    · exact .failure rfl

theorem readRuns_refuses (count : Nat) (bytes : List UInt8) :
    RefusesFormatOnly (readRuns rowCount count bytes) := by
  induction count with
  | zero => exact .ok _
  | succ count ih =>
    refine .bind ih fun _ _ => .bind ?_ fun _ _ => .ok _
    exact .bind (readField_refuses _ _ _) fun _ _ => .bind (.check rfl) fun _ _ =>
      .bind (.check rfl) fun _ _ => readRows_refuses _ _

theorem parse_refuses (keyCount : Nat) (bytes : List UInt8) :
    RefusesFormatOnly (parse keyCount bytes rowCount) := by
  refine .bind (.check rfl) fun _ _ => .bind (readKeys_refuses _ _ _) fun _ _ =>
    .bind ?_ fun _ _ => .bind (readRuns_refuses _ _) fun _ _ => .ok _
  exact .mapError _ fun _ => ⟨_, _, rfl⟩

end RunTable

end PackedRatings
