import Mathlib.Data.List.FinRange
import PackedRatings.Proofs.File.PackingRun
import PackedRatings.Proofs.File.TableReading
import PackedRatings.Proofs.Keys.Construction

/-!
# Writing what was read

Each part of a file is determined by what is read from it: a row by its rating, a table by its
keys and runs. So writing a rating gives its row back, and writing the entries of a table gives
the table back.
-/
namespace PackedRatings

namespace RowLayout

theorem encodeTriple_decode (layout : RowLayout) {row : List UInt8} (h : 24 ≤ row.length) :
    encodeTriple (layout.decode row) = row.take 24 := by
  have hfield : ∀ start, start + 8 ≤ 24 → ((row.drop start).take 8).length = 8 := by
    intro start hstart
    rw [List.length_take, List.length_drop]
    omega
  have huser : BigEndian.encodeInt64 (BigEndian.decodeInt64 (row.take 8)) = row.take 8 :=
    BigEndian.encodeInt64_decodeInt64 (hfield 0 (by decide))
  have hitem := BigEndian.encodeInt64_decodeInt64 (hfield 8 (by decide))
  have hvalue : BigEndian.encode 8
      (UInt64.ofNat (BigEndian.decode ((row.drop 16).take 8))).toNat = (row.drop 16).take 8 := by
    have hlt := BigEndian.decode_lt ((row.drop 16).take 8)
    rw [hfield 16 (by decide)] at hlt
    rw [UInt64.toNat_ofNat_of_lt' hlt]
    exact (BigEndian.eq_encode_decode (hfield 16 (by decide))).symm
  rw [encodeTriple, decode]
  dsimp only
  rw [huser, hitem, hvalue, ← List.take_add, ← List.take_add]

/-- A rating is written as the row that it was read from. -/
theorem write_decode {layout : RowLayout} {row : List UInt8} (h : row.length = layout.rowWidth) :
    layout.write (layout.decode row) = ⟨row, none⟩ := by
  obtain ⟨timestamps⟩ := layout
  cases timestamps with
  | false =>
    have hlength : row.length = 24 := h
    have htriple := encodeTriple_decode ⟨false⟩ (Nat.le_of_eq hlength.symm)
    rw [List.take_of_length_le (Nat.le_of_eq hlength)] at htriple
    exact congrArg (Emission.mk · none) htriple
  | true =>
    have hlength : row.length = 32 := h
    have htriple : encodeTriple (decode ⟨true⟩ row) = row.take 24 :=
      encodeTriple_decode ⟨true⟩ (by omega)
    have htimestamp : BigEndian.encodeInt64 (BigEndian.decodeInt64 ((row.drop 24).take 8)) =
        (row.drop 24).take 8 := by
      apply BigEndian.encodeInt64_decodeInt64
      rw [List.length_take, List.length_drop]
      omega
    have hrow : row.take 24 ++ (row.drop 24).take 8 = row := by
      rw [← List.take_add, List.take_of_length_le (Nat.le_of_eq hlength)]
    rw [write]
    change Emission.mk (encodeTriple (decode ⟨true⟩ row) ++
      BigEndian.encodeInt64 (BigEndian.decodeInt64 ((row.drop 24).take 8))) none = _
    rw [htriple, htimestamp, hrow]

/-- Writes rows one after the other, up to the first rating that is refused. -/
def writeAll (layout : RowLayout) : List Rating → Except Failure (List UInt8)
  | [] => .ok []
  | rating :: ratings =>
    match layout.write rating with
    | ⟨row, none⟩ => do return row ++ (← writeAll layout ratings)
    | ⟨_, some failure⟩ => .error failure

end RowLayout

/-- Bytes are cut into pieces of equal width without a loss. -/
theorem flatMap_range_take_drop {α : Type u} (l : List α) (width count : Nat) :
    (List.range count).flatMap (fun i => (l.drop (i * width)).take width) =
      l.take (count * width) := by
  induction count with
  | zero => simp
  | succ count ih =>
    rw [List.range_succ, List.flatMap_append, ih, List.flatMap_singleton, Nat.succ_mul,
      List.take_add]

namespace RowSection

variable {s : RowSection}

theorem write_row (i : Fin s.count) : s.layout.write (s.row i) = ⟨s.rowBytes i, none⟩ := by
  apply RowLayout.write_decode
  have hcomplete := s.complete
  have hstop := s.stop_le i
  change (s.rowBytes i).length = _
  rw [rowBytes_eq, List.length_take, List.length_drop, length_data_toList]
  omega

theorem writeAll_map_row (rows : List (Fin s.count)) :
    s.layout.writeAll (rows.map s.row) = .ok (rows.flatMap s.rowBytes) := by
  induction rows with
  | nil => rfl
  | cons i rows ih =>
    rw [List.map_cons, RowLayout.writeAll, write_row, ih]
    rfl

/-- The ratings of all rows are written as the bytes of the section. -/
theorem writeAll_rows (s : RowSection) :
    s.layout.writeAll ((List.finRange s.count).map s.row) = .ok s.bytes.data.toList := by
  have hlength : s.bytes.data.toList.length = s.count * s.layout.rowWidth :=
    (length_data_toList s.bytes).trans s.complete
  have hrows : (List.finRange s.count).flatMap s.rowBytes = s.bytes.data.toList := by
    have hpieces := flatMap_range_take_drop s.bytes.data.toList s.layout.rowWidth s.count
    rw [← List.map_coe_finRange_eq_range, List.flatMap_map,
      List.take_of_length_le (Nat.le_of_eq hlength)] at hpieces
    rw [funext s.rowBytes_eq]
    exact hpieces
  rw [writeAll_map_row, hrows]

end RowSection

namespace RowsByKey

theorem toList_ofList {β : Type u} {l : List (Int64 × β)}
    (h : (l.map Prod.fst).Pairwise (· < ·)) : (Std.TreeMap.ofList l).toList = l := by
  rw [List.pairwise_map] at h
  have hdistinct : l.Pairwise fun a b => ¬ compare a.1 b.1 = .eq :=
    h.imp fun hlt heq => Int64.ne_of_lt hlt (Std.compare_eq_iff_eq.1 heq)
  have hsorted : (Std.TreeMap.ofList l).toList.Pairwise fun a b => a.1 < b.1 :=
    Std.TreeMap.ordered_keys_toList.imp Std.compare_eq_lt.1
  have hmem : ∀ entry, entry ∈ (Std.TreeMap.ofList l).toList ↔ entry ∈ l := by
    rintro ⟨key, value⟩
    rw [Std.TreeMap.mem_toList_iff_getElem?_eq_some]
    constructor
    · intro hget
      by_cases hkey : key ∈ l.map Prod.fst
      · obtain ⟨⟨_, stored⟩, hstored, rfl⟩ := List.mem_map.1 hkey
        rw [Std.TreeMap.getElem?_ofList_of_mem Std.compare_self hdistinct hstored] at hget
        cases hget
        exact hstored
      · rw [Std.TreeMap.getElem?_ofList_of_contains_eq_false (by simpa using hkey)] at hget
        cases hget
    · exact Std.TreeMap.getElem?_ofList_of_mem Std.compare_self hdistinct
  have hperm : (Std.TreeMap.ofList l).toList.Perm l :=
    (List.perm_ext_iff_of_nodup (hsorted.imp fun hlt heq => Int64.ne_of_lt hlt (congrArg _ heq))
      (h.imp fun hlt heq => Int64.ne_of_lt hlt (congrArg _ heq))).2 hmem
  exact eq_of_perm_of_ascending hperm hsorted h

end RowsByKey

namespace RunTable

variable {n : Nat}

def rowsByKey (t : RunTable n) : RowsByKey :=
  Std.TreeMap.ofList (t.entries.map fun (key, rows) => (key, (rows.map Fin.val).toArray))

theorem runs_rowsByKey (t : RunTable n) : t.rowsByKey.runs = t.image := by
  have hkeys : (t.entries.map fun (key, rows) => (key, (rows.map Fin.val).toArray)).map
      Prod.fst = t.keys.toList := by
    rw [← keys_image, TableImage.keys, image, List.map_map, List.map_map]
    rfl
  rw [RowsByKey.runs, rowsByKey, RowsByKey.toList_ofList, image, List.map_map]
  · rfl
  · rw [hkeys]
    exact t.keys.toList_pairwise

theorem encodeRuns_rowsByKey {t : RunTable n} (h : t.image.WellFormed n)
    (hn : n ≤ FileHeader.maxCount) : encodeRuns t.rowsByKey.runs = .ok t.image.bytes := by
  rw [runs_rowsByKey]
  exact encodeRuns_eq_ok fun entry hentry => Nat.le_trans (h.length_run_le hentry) hn

end RunTable

end PackedRatings
