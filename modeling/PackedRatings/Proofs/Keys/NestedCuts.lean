import PackedRatings.Proofs.Keys.Ranks

/-!
# Cuts of cuts

A cut by key keeps the keys inside of its bounds, wherever the window stands in its backing array.
So one cut after the other keeps the keys inside of all bounds, in whatever order they are made.
What is cut off in front moves the window: it starts behind the keys that it has lost there, and
all positions are lower by their number.
-/
namespace PackedRatings

inductive KeyCut where
  | range (start stop : Int64)
  | head (stop : Int64)
  | tail (start : Int64)

namespace KeyCut

def admits : KeyCut → Int64 → Bool
  | range start stop, key => start ≤ key ∧ key < stop
  | head stop, key => key < stop
  | tail start, key => start ≤ key

def skips : KeyCut → Int64 → Bool
  | range start _, key => key < start
  | head _, _ => false
  | tail start, key => key < start

/-- The keys that are cut off in front by one cut after the other. -/
def skipped : List KeyCut → List Int64 → List Int64
  | [], _ => []
  | cut :: cuts, keys => keys.filter cut.skips ++ skipped cuts (keys.filter cut.admits)

end KeyCut

namespace KeyWindow

variable {w v u : KeyWindow} {before : List Int64}

def cut (w : KeyWindow) : KeyCut → KeyWindow
  | .range start stop => w.range start stop
  | .head stop => w.head stop
  | .tail start => w.tail start

def cutAll (w : KeyWindow) (cuts : List KeyCut) : KeyWindow :=
  cuts.foldl cut w

/-- `v` shows keys of `w` in the same backing array and stands behind the keys `before` of `w`. -/
structure ViewOf (v w : KeyWindow) (before : List Int64) : Prop where
  backing : v.backing = w.backing
  lower : v.lower = w.lower + before.length
  toList : ∃ behind, w.toList = before ++ v.toList ++ behind
  below : ∀ first, v.first? = some first → before = w.toList.filter fun key => key < first
  index? : ∀ key ∈ v.toList, ∃ i, w.index? key = some i ∧ before.length ≤ i ∧
    v.index? key = some (i - before.length)

/-- The position of a key is the number of keys in front of it. -/
theorem index?_of_toList_eq {front behind : List Int64} {key : Int64}
    (h : w.toList = front ++ key :: behind) : w.index? key = some front.length := by
  have hlt : front.length < w.toList.length := by simp [h]
  have hget : w.toList[front.length] = key := by simp [h]
  rw [getElem_toList] at hget
  exact index?_eq_some_iff.2 ⟨by simpa using hlt, hget⟩

/-- In an ascending list the keys below one of them are those in front of it. -/
theorem filter_lt_of_toList_eq {front behind : List Int64} {key : Int64}
    (h : w.toList = front ++ key :: behind) :
    w.toList.filter (fun k => k < key) = front := by
  have hascending := w.toList_pairwise
  rw [h, List.pairwise_append] at hascending
  obtain ⟨-, hbehind, hfront⟩ := hascending
  have hkeep : front.filter (fun k => k < key) = front := by
    rw [List.filter_eq_self]
    intro k hk
    exact decide_eq_true (hfront k hk key List.mem_cons_self)
  have hdrop : (key :: behind).filter (fun k => k < key) = [] := by
    rw [List.filter_eq_nil_iff]
    intro k hk hlt
    have hle : key ≤ k := by
      rcases List.mem_cons.1 hk with rfl | hk
      · exact Int64.le_refl k
      · exact Int64.le_of_lt ((List.pairwise_cons.1 hbehind).1 k hk)
    exact Int64.lt_irrefl (Int64.lt_of_le_of_lt hle (of_decide_eq_true hlt))
  rw [h, List.filter_append, hkeep, hdrop, List.append_nil]

/-- A window further back in the same array, with a part of the keys, is a view. -/
theorem viewOf_of_append (behind : List Int64) (hbacking : v.backing = w.backing)
    (hlower : v.lower = w.lower + before.length)
    (htoList : w.toList = before ++ v.toList ++ behind) : v.ViewOf w before where
  backing := hbacking
  lower := hlower
  toList := ⟨behind, htoList⟩
  below := by
    intro first hfirst
    obtain ⟨rest, hrest⟩ := List.head?_eq_some_iff.1 hfirst
    rw [hrest, List.append_assoc, List.cons_append] at htoList
    exact (filter_lt_of_toList_eq htoList).symm
  index? := by
    intro key hkey
    obtain ⟨front, rest, hsplit⟩ := List.append_of_mem hkey
    have hsplit' : w.toList = (before ++ front) ++ key :: (rest ++ behind) := by
      rw [htoList, hsplit]
      simp
    refine ⟨_, index?_of_toList_eq hsplit', by simp, ?_⟩
    rw [index?_of_toList_eq hsplit, List.length_append, Nat.add_sub_cancel_left]

theorem viewOf_slice (w : KeyWindow) {lower upper : Nat} (ordered : lower ≤ upper)
    (bound : upper ≤ w.length) :
    (w.slice lower upper ordered bound).ViewOf w (w.toList.take lower) := by
  have hlength : (w.toList.take lower).length = lower := by
    rw [List.length_take, length_toList]
    omega
  have hupper : w.toList.take upper = w.toList.take lower ++ (w.toList.take upper).drop lower := by
    rw [← Nat.min_eq_left ordered, ← List.take_take, Nat.min_eq_left ordered,
      List.take_append_drop]
  apply viewOf_of_append (w.toList.drop upper)
  · rfl
  · rw [hlength]
    rfl
  · rw [toList_slice, ← hupper, List.take_append_drop]

theorem viewOf_refl (w : KeyWindow) : w.ViewOf w [] :=
  viewOf_of_append [] rfl rfl (by simp)

theorem ViewOf.trans {before' : List Int64} (huv : u.ViewOf v before') (hvw : v.ViewOf w before) :
    u.ViewOf w (before ++ before') := by
  obtain ⟨behind, hbehind⟩ := hvw.toList
  obtain ⟨behind', hbehind'⟩ := huv.toList
  apply viewOf_of_append (behind' ++ behind)
  · rw [huv.backing, hvw.backing]
  · rw [huv.lower, hvw.lower, List.length_append, Nat.add_assoc]
  · rw [hbehind, hbehind']
    simp

theorem take_countBelow (w : KeyWindow) (key : Int64) :
    w.toList.take (w.countBelow key) = w.toList.filter fun k => k < key := by
  rw [← toList_head, head, toList_slice, List.drop_zero]

theorem range_viewOf (w : KeyWindow) (start stop : Int64) :
    (w.range start stop).ViewOf w (w.toList.filter fun key => key < start) := by
  rw [← take_countBelow]
  exact w.viewOf_slice _ _

theorem head_viewOf (w : KeyWindow) (stop : Int64) : (w.head stop).ViewOf w [] :=
  w.viewOf_slice _ _

theorem tail_viewOf (w : KeyWindow) (start : Int64) :
    (w.tail start).ViewOf w (w.toList.filter fun key => key < start) := by
  rw [← take_countBelow]
  exact w.viewOf_slice _ _

theorem toList_head_append_tail (w : KeyWindow) (key : Int64) :
    (w.head key).toList ++ (w.tail key).toList = w.toList := by
  rw [head, tail, toList_slice, toList_slice, List.drop_zero, ← w.length_toList, List.take_length,
    List.take_append_drop]

theorem toList_range_of_le (w : KeyWindow) {start stop : Int64} (h : stop ≤ start) :
    (w.range start stop).toList = [] := by
  rw [toList_range, List.filter_eq_nil_iff]
  intro key _ hkey
  obtain ⟨hstart, hstop⟩ := of_decide_eq_true hkey
  exact Int64.lt_irrefl (Int64.lt_of_lt_of_le hstop (Int64.le_trans h hstart))

theorem toList_cut (w : KeyWindow) (c : KeyCut) : (w.cut c).toList = w.toList.filter c.admits := by
  cases c with
  | range start stop => exact w.toList_range start stop
  | head stop => exact w.toList_head stop
  | tail start => exact w.toList_tail start

theorem cut_viewOf (w : KeyWindow) (c : KeyCut) : (w.cut c).ViewOf w (w.toList.filter c.skips) := by
  cases c with
  | range start stop => exact w.range_viewOf start stop
  | head stop =>
    have hskips : w.toList.filter (KeyCut.head stop).skips = [] := by simp [KeyCut.skips]
    rw [hskips]
    exact w.head_viewOf stop
  | tail start => exact w.tail_viewOf start

theorem toList_cutAll (w : KeyWindow) (cuts : List KeyCut) :
    (w.cutAll cuts).toList = w.toList.filter fun key => cuts.all fun c => c.admits key := by
  induction cuts generalizing w with
  | nil => simp [cutAll]
  | cons c cuts ih =>
    change ((w.cut c).cutAll cuts).toList = _
    rw [ih, toList_cut, List.filter_filter]
    simp [Bool.and_comm]

theorem cutAll_viewOf (w : KeyWindow) (cuts : List KeyCut) :
    (w.cutAll cuts).ViewOf w (KeyCut.skipped cuts w.toList) := by
  induction cuts generalizing w with
  | nil => exact w.viewOf_refl
  | cons c cuts ih =>
    have hrest := (ih (w.cut c)).trans (w.cut_viewOf c)
    rw [toList_cut] at hrest
    exact hrest

theorem toList_cutAll_perm (w : KeyWindow) {cuts cuts' : List KeyCut} (h : cuts.Perm cuts') :
    (w.cutAll cuts).toList = (w.cutAll cuts').toList := by
  rw [toList_cutAll, toList_cutAll]
  congr 1
  funext key
  exact h.all_eq

theorem exists_sub_eq_ok (w : KeyWindow) {lower upper : Nat} (ordered : lower ≤ upper)
    (bound : upper ≤ w.length) : ∃ v, w.sub lower upper = .ok v ∧
      v.toList = (w.toList.take upper).drop lower ∧ v.ViewOf w (w.toList.take lower) := by
  refine ⟨w.slice lower upper ordered bound, ?_, w.toList_slice ordered bound,
    w.viewOf_slice ordered bound⟩
  rw [sub, dif_pos ordered, dif_pos bound]

/-- A cut by position asks first whether its bounds are in order. -/
theorem sub_eq_error_iff {lower upper : Nat} {failure : Failure} :
    w.sub lower upper = .error failure ↔
      upper < lower ∧ failure = .invalidArgument "lower" "expected lower <= upper" ∨
      lower ≤ upper ∧ w.length < upper ∧
        failure = .invalidArgument "upper" "expected upper <= self.len()" := by
  have hlower : Requirement.lowerWithinUpper.failure =
      .invalidArgument "lower" "expected lower <= upper" := by decide +kernel
  have hupper : Requirement.upperWithinLength.failure =
      .invalidArgument "upper" "expected upper <= self.len()" := by decide +kernel
  rw [sub, hlower, hupper]
  by_cases ordered : lower ≤ upper
  · by_cases bound : upper ≤ w.length
    · simp [ordered, bound, Nat.not_lt.2 ordered, Nat.not_lt.2 bound]
    · simp [ordered, bound, Nat.not_lt.2 ordered, Nat.lt_of_not_le bound, eq_comm]
  · simp [ordered, Nat.lt_of_not_le ordered, eq_comm]

/-- All cuts of a window are views of it that filter its keys or slice them. -/
structure CutsByFilters (w : KeyWindow) : Prop where
  range : ∀ start stop,
    (w.range start stop).toList = (w.toList.filter fun key => start ≤ key ∧ key < stop) ∧
      (w.range start stop).ViewOf w (w.toList.filter fun key => key < start)
  range_of_le : ∀ start stop, stop ≤ start → (w.range start stop).toList = []
  head : ∀ stop, (w.head stop).toList = (w.toList.filter fun key => key < stop) ∧
    (w.head stop).ViewOf w []
  tail : ∀ start, (w.tail start).toList = (w.toList.filter fun key => start ≤ key) ∧
    (w.tail start).ViewOf w (w.toList.filter fun key => key < start)
  head_append_tail : ∀ key, (w.head key).toList ++ (w.tail key).toList = w.toList
  cutAll : ∀ cuts,
    (w.cutAll cuts).toList = (w.toList.filter fun key => cuts.all fun c => c.admits key) ∧
      (w.cutAll cuts).ViewOf w (KeyCut.skipped cuts w.toList)
  cutAll_perm : ∀ cuts cuts' : List KeyCut, cuts.Perm cuts' →
    (w.cutAll cuts).toList = (w.cutAll cuts').toList
  sub_ok : ∀ lower upper, lower ≤ upper → upper ≤ w.length → ∃ v, w.sub lower upper = .ok v ∧
    v.toList = (w.toList.take upper).drop lower ∧ v.ViewOf w (w.toList.take lower)
  sub_error : ∀ lower upper failure, w.sub lower upper = .error failure ↔
    upper < lower ∧ failure = .invalidArgument "lower" "expected lower <= upper" ∨
    lower ≤ upper ∧ w.length < upper ∧
      failure = .invalidArgument "upper" "expected upper <= self.len()"
  compact : w.compact.toList = w.toList ∧ w.compact.lower = 0 ∧
    w.compact.backing.size = w.length

/-- However a window was made and cut before, its cuts filter its keys and keep their places. -/
theorem cuts_are_filters (w : KeyWindow) : w.CutsByFilters where
  range := fun start stop => ⟨w.toList_range start stop, w.range_viewOf start stop⟩
  range_of_le := fun _ _ => w.toList_range_of_le
  head := fun stop => ⟨w.toList_head stop, w.head_viewOf stop⟩
  tail := fun start => ⟨w.toList_tail start, w.tail_viewOf start⟩
  head_append_tail := w.toList_head_append_tail
  cutAll := fun cuts => ⟨w.toList_cutAll cuts, w.cutAll_viewOf cuts⟩
  cutAll_perm := fun _ _ => w.toList_cutAll_perm
  sub_ok := fun _ _ => w.exists_sub_eq_ok
  sub_error := fun _ _ _ => sub_eq_error_iff
  compact := ⟨w.toList_compact, rfl, w.size_backing_compact⟩

/-- A window over the middle of an array. Cut to the keys from 25 on and below 40, in either order,
it starts one position further on. -/
theorem cuts_are_filters_middle : ∃ w : KeyWindow, w.backing = #[10, 20, 30, 40, 50] ∧
    w.lower = 1 ∧ w.toList = [20, 30, 40] ∧ (w.cutAll [.tail 25, .head 40]).toList = [30] ∧
    (w.cutAll [.head 40, .tail 25]).toList = [30] ∧ (w.cutAll [.tail 25, .head 40]).lower = 2 := by
  have hascending : [(10 : Int64), 20, 30, 40, 50].Pairwise (· < ·) := by decide
  let w := (whole [10, 20, 30, 40, 50] hascending).slice 1 4 (by decide) (Nat.le_succ 4)
  have hw : w.toList = [20, 30, 40] := rfl
  obtain ⟨hkeys, hview⟩ := (cuts_are_filters w).cutAll [.tail 25, .head 40]
  have horder := (cuts_are_filters w).cutAll_perm [.tail 25, .head 40] [.head 40, .tail 25]
    (.swap _ _ [])
  have hcut : (w.cutAll [.tail 25, .head 40]).toList = [30] := by
    rw [hkeys, hw]
    decide
  exact ⟨w, rfl, rfl, hw, hcut, horder.symm.trans hcut, hview.lower⟩

end KeyWindow

end PackedRatings
