import PackedRatings.Proofs.Store.ReadingInRange
import PackedRatings.Proofs.Store.Sessions

/-!
# Passes that count

A machine does not keep what a pass has still to give. Over the rows as they stand in the file it
keeps the position of the next row and the position behind the last, both in 32 bits, and over
listed rows or the users of a table it keeps the place of the next one. What is to come is computed
as a difference of words, and the two kinds of passes find their end by different tests.
`CountingPass.CountsDown` says that such a pass gives certain items, then nothing any more, and
that it always knows how many of them are to come. It is shown of every pass over an open file.
-/
namespace PackedRatings

open Guarded

inductive Item where
  | rating (rating : Rating)
  | group (group : Int64 × Selection)

inductive Opening where
  | ratings (order : RatingOrder)
  | groups
  deriving DecidableEq

inductive Pass where
  | ratings (cursor : RatingCursor)
  | groups (groups : UserGroups)

def UserGroups.advance (g : UserGroups) : UserGroups :=
  match g.next? with
  | some (_, g) => g
  | none => g

namespace Pass

def items : Pass → List Item
  | ratings c => c.rest.map .rating
  | groups g => g.rest.map .group

def remaining : Pass → Nat
  | ratings c => c.remaining
  | groups g => g.remaining

def next? : Pass → Option Item
  | ratings c => c.next?.map fun result => .rating result.1
  | groups g => g.next?.map fun result => .group result.1

def advance : Pass → Pass
  | ratings c => .ratings c.advance
  | groups g => .groups g.advance

theorem remaining_eq (p : Pass) : p.remaining = p.items.length := by
  cases p with
  | ratings c => simp [remaining, items, RatingCursor.remaining, RatingCursor.rest]
  | groups g => simp [remaining, items, UserGroups.remaining, UserGroups.rest]

theorem next?_eq (p : Pass) : p.next? = p.items[0]? := by
  cases p with
  | ratings c =>
    obtain ⟨source, upcoming⟩ := c
    cases upcoming with
    | nil => rfl
    | cons row rows => rfl
  | groups g =>
    obtain ⟨source, upcoming⟩ := g
    cases upcoming with
    | nil => rfl
    | cons group groups => rfl

theorem items_advance (p : Pass) : p.advance.items = p.items.drop 1 := by
  cases p with
  | ratings c =>
    obtain ⟨source, upcoming⟩ := c
    cases upcoming with
    | nil => rfl
    | cons row rows => rfl
  | groups g =>
    obtain ⟨source, upcoming⟩ := g
    cases upcoming with
    | nil => rfl
    | cons group groups => rfl

end Pass

def RatingStore.start (s : RatingStore) : Opening → Except Failure Pass
  | .ratings order => do return .ratings (← s.cursor order)
  | .groups => do return .groups (← s.userGroups)

inductive CountingPass where
  /-- The row positions from `start` up to but not including `stop`. -/
  | stored (source : RowSection) (start stop : UInt32)
  /-- The row positions of a list from the place `next` on. -/
  | listed (source : RowSection) (rows : List (Fin source.count)) (next : Nat)
  /-- The keys of a table with their runs, from the place `next` on. -/
  | users (source : RowSection) (table : RunTable source.count) (next : Nat)

namespace CountingPass

def remaining : CountingPass → Guarded Nat
  | stored _ start stop => pure (if start < stop then (stop - start).toNat else 0)
  | listed _ rows next => sub rows.length next
  | users _ table next => sub table.keyCount next

/-- A lower and an upper bound of how many items are to come. -/
def sizeHint (p : CountingPass) : Guarded (Nat × Option Nat) := do
  let count ← p.remaining
  return (count, some count)

def next (file : ByteArray) : CountingPass → Guarded (Option Item × CountingPass)
  | stored source start stop =>
    if start < stop then do
      let rating ← source.layout.guardedRow file start.toNat
      return (some (.rating rating), stored source (start + 1) stop)
    else return (none, stored source start stop)
  | listed source rows place =>
    match rows[place]? with
    | some row => do
      let after ← word (place + 1)
      let rating ← source.layout.guardedRow file row
      return (some (.rating rating), listed source rows after)
    | none => return (none, listed source rows place)
  | users source table place =>
    match table.keys.get place with
    | .ok user => do
      let rows ← table.guardedRun place
      let after ← word (place + 1)
      return (some (.group (user, ⟨source, rows⟩)), users source table after)
    | .error _ => return (none, users source table place)

/-- Called again and again, the pass gives `items` one after the other. Then it gives nothing and
stays as it is. Before each call both bounds say how many items are to come. -/
inductive CountsDown (file : ByteArray) : CountingPass → List Item → Prop where
  | done {p : CountingPass} (hhint : p.sizeHint = pure (0, some 0))
      (hnext : p.next file = pure (none, p)) : CountsDown file p []
  | item {p p' : CountingPass} {item : Item} {items : List Item}
      (hhint : p.sizeHint = pure (items.length + 1, some (items.length + 1)))
      (hnext : p.next file = pure (some item, p')) (hrest : CountsDown file p' items) :
      CountsDown file p (item :: items)

variable {file : ByteArray} {items : List Item}

/-- It is enough to look at the pass after each number of items. -/
theorem countsDown_drop {p : Nat → CountingPass}
    (hremaining : ∀ i ≤ items.length, (p i).remaining = pure (items.length - i))
    (hnext : ∀ i (hi : i < items.length),
      (p i).next file = pure (some items[i], p (i + 1)))
    (hend : (p items.length).next file = pure (none, p items.length))
    {i : Nat} (hi : i ≤ items.length) : CountsDown file (p i) (items.drop i) := by
  have hhint : ∀ i ≤ items.length,
      (p i).sizeHint = pure (items.length - i, some (items.length - i)) := by
    intro i hi
    rw [sizeHint, hremaining i hi, pure_bind]
  induction hcount : items.length - i generalizing i with
  | zero =>
    obtain rfl : i = items.length := by omega
    rw [List.drop_length]
    have hdone := hhint items.length (Nat.le_refl _)
    rw [Nat.sub_self] at hdone
    exact .done hdone hend
  | succ count ih =>
    have hlt : i < items.length := by omega
    have hlength : (items.drop (i + 1)).length + 1 = items.length - i := by
      rw [List.length_drop]
      omega
    rw [List.drop_eq_getElem_cons hlt]
    refine .item ?_ (hnext i hlt) (ih hlt (by omega))
    rw [hlength, hhint i hi]

variable {source : RowSection}

theorem countsDown_stored (h : source.StandsIn file) :
    CountsDown file (.stored source 0 (UInt32.ofNat source.count))
      (((List.finRange source.count).map source.row).map .rating) := by
  have hsize : source.count < UInt32.size := Nat.lt_of_le_of_lt h.count_le (by decide)
  have hword : ∀ i ≤ source.count, (UInt32.ofNat i).toNat = i := fun i hi =>
    UInt32.toNat_ofNat_of_lt' (Nat.lt_of_le_of_lt hi hsize)
  have hlt : ∀ i ≤ source.count,
      (UInt32.ofNat i < UInt32.ofNat source.count ↔ i < source.count) := by
    intro i hi
    rw [UInt32.lt_iff_toNat_lt, hword i hi, hword _ (Nat.le_refl _)]
  have hlength : (((List.finRange source.count).map source.row).map Item.rating).length =
      source.count := by
    rw [List.length_map, List.length_map, List.length_finRange]
  refine countsDown_drop (p := fun i => .stored source (UInt32.ofNat i) (UInt32.ofNat source.count))
    ?_ ?_ ?_ (Nat.zero_le _)
  · intro i hi
    rw [hlength] at hi
    rw [hlength, remaining]
    by_cases hi' : i < source.count
    · have hle : UInt32.ofNat i ≤ UInt32.ofNat source.count := by
        rw [UInt32.le_iff_toNat_le, hword i hi, hword _ (Nat.le_refl _)]
        exact hi
      rw [if_pos ((hlt i hi).2 hi'), UInt32.toNat_sub_of_le _ _ hle, hword i hi,
        hword _ (Nat.le_refl _)]
    · rw [if_neg (mt (hlt i hi).1 hi'), Nat.sub_eq_zero_of_le (Nat.le_of_not_lt hi')]
  · intro i hi
    rw [hlength] at hi
    have hrow := h.guardedRow_eq_pure ⟨i, hi⟩
    rw [next, if_pos ((hlt i (Nat.le_of_lt hi)).2 hi), hword i (Nat.le_of_lt hi), hrow, pure_bind]
    simp
  · rw [hlength, next, if_neg (mt (hlt _ (Nat.le_refl _)).1 (Nat.lt_irrefl _))]

theorem countsDown_listed (h : source.StandsIn file) {rows : List (Fin source.count)}
    (hrows : rows.length < UInt64.size) :
    CountsDown file (.listed source rows 0) ((rows.map source.row).map .rating) := by
  have hlength : ((rows.map source.row).map Item.rating).length = rows.length := by
    rw [List.length_map, List.length_map]
  refine countsDown_drop (p := .listed source rows) ?_ ?_ ?_ (Nat.zero_le _)
  · intro i hi
    rw [hlength] at hi
    rw [hlength]
    exact sub_eq_pure hi
  · intro i hi
    rw [hlength] at hi
    have hplace : i + 1 < UInt64.size := by omega
    rw [next, List.getElem?_eq_getElem hi]
    dsimp only
    rw [word_eq_pure hplace, pure_bind, h.guardedRow_eq_pure, pure_bind]
    simp
  · rw [hlength, next, List.getElem?_eq_none (Nat.le_refl _)]

theorem countsDown_users {table : RunTable source.count}
    (hkeys : table.keys.length < UInt64.size) :
    CountsDown file (.users source table 0)
      ((⟨source, table.entries⟩ : UserGroups).rest.map .group) := by
  have hlength : ((⟨source, table.entries⟩ : UserGroups).rest.map Item.group).length =
      table.keys.length := by
    simp [UserGroups.rest, RunTable.entries]
  refine countsDown_drop (p := .users source table) ?_ ?_ ?_ (Nat.zero_le _)
  · intro i hi
    rw [hlength] at hi
    rw [hlength]
    exact sub_eq_pure hi
  · intro i hi
    rw [hlength] at hi
    have hget : table.keys.get i = .ok (table.keys.keyAt ⟨i, hi⟩) := dif_pos hi
    have hplace : i + 1 < UInt64.size := by omega
    rw [next, hget]
    dsimp only
    rw [RunTable.guardedRun_eq_pure hkeys ⟨i, hi⟩, pure_bind, word_eq_pure hplace, pure_bind]
    simp [UserGroups.rest, RunTable.entries]
  · have hget : table.keys.get table.keys.length =
        .error (.indexOutOfBounds table.keys.length table.keys.length) :=
      dif_neg (Nat.lt_irrefl _)
    rw [hlength, next, hget]

end CountingPass

open CountingPass

/-- A new pass as a machine keeps it. The row positions of a list are sorted or cut out before the
pass begins. -/
def RatingFile.guardedPass (f : RatingFile) (file : ByteArray) (timestamps : Bool) :
    Opening → Guarded CountingPass
  | .ratings .stored => return .stored f.rows 0 (UInt32.ofNat f.rows.count)
  | .ratings .timestamp =>
    if timestamps then return .listed f.rows (← f.rows.guardedTimeOrder file) 0
    else return .stored f.rows 0 (UInt32.ofNat f.rows.count)
  | .ratings .user => return .listed f.rows (← slice f.users.allRows 0 f.users.allRows.length) 0
  | .ratings .item => return .listed f.rows (← slice f.items.allRows 0 f.items.allRows.length) 0
  | .groups => return .users f.rows f.users 0

namespace RatingStore

def guardedStart (s : RatingStore) (file : ByteArray) (opening : Opening) :
    Guarded CountingPass := do
  (← lift s.file).guardedPass file s.header.layout.timestamps opening

variable {s : RatingStore} {f : RatingFile} {file : ByteArray}

theorem start_ratings {order : RatingOrder} {c : RatingCursor} (h : s.cursor order = .ok c) :
    s.start (.ratings order) = .ok (.ratings c) := by
  rw [start, h]
  rfl

/-- A pass over an open file can always be started, and the machine counts down its items. -/
theorem exists_start_countsDown (hfile : s.file? = some f) (h : f.StandsIn file)
    (opening : Opening) :
    ∃ p, s.start opening = .ok p ∧
      ∃ q, s.guardedStart file opening = pure q ∧ CountsDown file q p.items := by
  obtain ⟨path, header, file?⟩ := s
  obtain rfl : file? = some f := hfile
  have hstored := countsDown_stored h.rows
  have hlisted : ∀ {rows : List (Fin f.rows.count)}, rows.length = f.rows.count →
      CountsDown file (.listed f.rows rows 0) ((rows.map f.rows.row).map .rating) := by
    intro rows hlength
    apply countsDown_listed h.rows
    rw [hlength]
    exact Nat.lt_of_le_of_lt h.rows.count_le (by decide)
  change ∃ p, _ ∧ ∃ q, f.guardedPass file header.layout.timestamps opening = pure q ∧ _
  cases opening with
  | ratings order =>
    cases order with
    | stored => exact ⟨_, rfl, _, rfl, hstored⟩
    | timestamp =>
      by_cases htimestamps : header.layout.timestamps = true
      · have htime : f.rows.timeOrder.length = f.rows.count :=
          (List.length_mergeSort _).trans List.length_finRange
        refine ⟨_, start_ratings (if_pos htimestamps), _, ?_, hlisted htime⟩
        rw [RatingFile.guardedPass, if_pos htimestamps, h.rows.guardedTimeOrder_eq_pure]
        rfl
      · exact ⟨_, start_ratings (if_neg htimestamps), _, if_neg htimestamps, hstored⟩
    | user =>
      refine ⟨_, rfl, _, ?_, hlisted h.userRows⟩
      rw [RatingFile.guardedPass, slice_all]
      rfl
    | item =>
      refine ⟨_, rfl, _, ?_, hlisted h.itemRows⟩
      rw [RatingFile.guardedPass, slice_all]
      rfl
  | groups => exact ⟨_, rfl, _, rfl, countsDown_users h.userKeys⟩

end RatingStore

end PackedRatings
