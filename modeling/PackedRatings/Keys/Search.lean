import PackedRatings.Keys.KeyWindow

/-!
# Searching a window of keys

Positions are found by halving. `countBelow` and `countUpTo` split the positions of a window at a
key. `position?` has a search of its own, which ends as soon as it comes to the key, and it finds
exactly the keys that the window holds.
-/
namespace PackedRatings.KeyWindow

/-- The first position from `lo` on whose key fails `p`, found by halving. It relies on all
keys that satisfy `p` standing before all others. -/
def search (w : KeyWindow) (p : Int64 → Bool) (lo : Nat) (hi : Fin (w.length + 1)) : Nat :=
  if h : lo < hi then
    let mid : Fin w.length := ⟨(lo + hi) / 2, by omega⟩
    if p (w.keyAt mid) then w.search p (mid + 1) hi
    else w.search p lo mid.castSucc
  else lo
termination_by hi.val - lo

theorem search_le (w : KeyWindow) (p : Int64 → Bool) {lo : Nat} {hi : Fin (w.length + 1)}
    (h : lo ≤ hi) : w.search p lo hi ≤ hi := by
  fun_induction search w p lo hi with
  | case1 lo hi hlt mid hp ih => exact ih (show (lo + hi) / 2 + 1 ≤ hi by omega)
  | case2 lo hi hlt mid hp ih =>
    have hmid : mid.castSucc ≤ hi := Fin.le_def.2 (show (lo + hi) / 2 ≤ hi by omega)
    exact Nat.le_trans (ih (show lo ≤ (lo + hi) / 2 by omega)) hmid
  | case3 lo hi hlt => exact h

theorem le_search (w : KeyWindow) (p : Int64 → Bool) {lo : Nat} {hi : Fin (w.length + 1)}
    (h : lo ≤ hi) : lo ≤ w.search p lo hi := by
  fun_induction search w p lo hi with
  | case1 lo hi hlt mid hp ih =>
    have hmid : lo ≤ mid := show lo ≤ (lo + hi) / 2 by omega
    exact Nat.le_trans (Nat.le_succ_of_le hmid) (ih (show (lo + hi) / 2 + 1 ≤ hi by omega))
  | case2 lo hi hlt mid hp ih => exact ih (show lo ≤ (lo + hi) / 2 by omega)
  | case3 lo hi hlt => exact Nat.le_refl _

/-- The keys before the position found satisfy `p`, the keys from it on fail it. -/
theorem lt_search_iff (w : KeyWindow) (p : Int64 → Bool)
    (down : ∀ i j : Fin w.length, i ≤ j → p (w.keyAt j) = true → p (w.keyAt i) = true)
    {lo : Nat} {hi : Fin (w.length + 1)} {i : Fin w.length} (hlo : lo ≤ i) (hhi : i.val < hi) :
    i < w.search p lo hi ↔ p (w.keyAt i) = true := by
  fun_induction search w p lo hi with
  | case1 lo hi hlt mid hp ih =>
    by_cases h : mid.val + 1 ≤ i
    · exact ih h hhi
    · have hmid : i ≤ mid := Fin.le_def.2 (Nat.le_of_lt_succ (Nat.lt_of_not_le h))
      have hnext : mid.val + 1 ≤ hi := show (lo + hi) / 2 + 1 ≤ hi by omega
      exact iff_of_true (Nat.lt_of_le_of_lt hmid (w.le_search p hnext)) (down i mid hmid hp)
  | case2 lo hi hlt mid hp ih =>
    by_cases h : i < mid
    · exact ih hlo h
    · have hmid : mid ≤ i := Fin.not_lt.1 h
      have hlast : lo ≤ mid.castSucc.val := show lo ≤ (lo + hi) / 2 by omega
      have hfound := Nat.le_trans (w.search_le p hlast) hmid
      exact iff_of_false (Nat.not_lt.2 hfound) fun hi => hp (down mid i hmid hi)
  | case3 lo hi hlt => omega

def countBelow (w : KeyWindow) (key : Int64) : Nat :=
  w.search (fun k => decide (k < key)) 0 (Fin.last _)

def countUpTo (w : KeyWindow) (key : Int64) : Nat :=
  w.search (fun k => decide (k ≤ key)) 0 (Fin.last _)

theorem countBelow_le (w : KeyWindow) (key : Int64) : w.countBelow key ≤ w.length :=
  w.search_le _ (Nat.zero_le _)

theorem countUpTo_le (w : KeyWindow) (key : Int64) : w.countUpTo key ≤ w.length :=
  w.search_le _ (Nat.zero_le _)

theorem lt_countBelow_iff (w : KeyWindow) {key : Int64} {i : Fin w.length} :
    i < w.countBelow key ↔ w.keyAt i < key := by
  rw [countBelow, w.lt_search_iff _ _ (Nat.zero_le _) i.isLt, decide_eq_true_eq]
  intro i j hij hj
  simp only [decide_eq_true_eq] at *
  exact Int64.lt_of_le_of_lt (w.keyAt_le_keyAt hij) hj

theorem lt_countUpTo_iff (w : KeyWindow) {key : Int64} {i : Fin w.length} :
    i < w.countUpTo key ↔ w.keyAt i ≤ key := by
  rw [countUpTo, w.lt_search_iff _ _ (Nat.zero_le _) i.isLt, decide_eq_true_eq]
  intro i j hij hj
  simp only [decide_eq_true_eq] at *
  exact Int64.le_trans (w.keyAt_le_keyAt hij) hj

/-- The position of `key` among those from `lo` on and below `hi`, found by halving. -/
def find? (w : KeyWindow) (key : Int64) (lo : Nat) (hi : Fin (w.length + 1)) :
    Option (Fin w.length) :=
  if h : lo < hi then
    let mid : Fin w.length := ⟨(lo + hi) / 2, by omega⟩
    if w.keyAt mid = key then some mid
    else if w.keyAt mid < key then w.find? key (mid + 1) hi
    else w.find? key lo mid.castSucc
  else none
termination_by hi.val - lo

theorem keyAt_of_find? {w : KeyWindow} {key : Int64} {lo : Nat} {hi : Fin (w.length + 1)}
    {i : Fin w.length} (h : w.find? key lo hi = some i) : w.keyAt i = key := by
  fun_induction find? w key lo hi with
  | case1 lo hi hlt mid hkey => rwa [← Option.some.inj h]
  | case2 lo hi hlt mid hne hbelow ih => exact ih h
  | case3 lo hi hlt mid hne hnot ih => exact ih h
  | case4 lo hi hlt => cases h

/-- The half in which the search goes on is the one that has the key. -/
theorem find?_keyAt (w : KeyWindow) {lo : Nat} {hi : Fin (w.length + 1)} {i : Fin w.length}
    (hlo : lo ≤ i) (hhi : i.val < hi) : w.find? (w.keyAt i) lo hi = some i := by
  fun_induction find? w (w.keyAt i) lo hi with
  | case1 lo hi hlt mid hkey => rw [w.keyAt_injective hkey]
  | case2 lo hi hlt mid hne hbelow ih =>
    have hmid : ¬ i ≤ mid := fun hle => Int64.not_le.2 hbelow (w.keyAt_le_keyAt hle)
    exact ih (Nat.lt_of_not_le hmid) hhi
  | case3 lo hi hlt mid hne hnot ih =>
    have hmid : ¬ mid ≤ i := by
      intro hle
      rcases Nat.lt_or_eq_of_le hle with hbelow | heq
      · exact hnot (w.keyAt_lt_keyAt hbelow)
      · exact hne (congrArg w.keyAt (Fin.ext heq))
    exact ih hlo (Nat.lt_of_not_le hmid)
  | case4 lo hi hlt => omega

/-- The position of `key`, if the window holds it. -/
def position? (w : KeyWindow) (key : Int64) : Option (Fin w.length) :=
  w.find? key 0 (Fin.last _)

theorem position?_eq_some_iff {w : KeyWindow} {key : Int64} {i : Fin w.length} :
    w.position? key = some i ↔ w.keyAt i = key := by
  constructor
  · exact keyAt_of_find?
  · rintro rfl
    exact w.find?_keyAt (Nat.zero_le _) i.isLt

theorem position?_eq_none_iff {w : KeyWindow} {key : Int64} :
    w.position? key = none ↔ key ∉ w.toList := by
  rw [Option.eq_none_iff_forall_ne_some, mem_toList, not_exists]
  exact forall_congr' fun i => not_congr position?_eq_some_iff

def index? (w : KeyWindow) (key : Int64) : Option Nat :=
  (w.position? key).map Fin.val

def contains (w : KeyWindow) (key : Int64) : Bool :=
  (w.position? key).isSome

theorem contains_iff {w : KeyWindow} {key : Int64} : w.contains key = true ↔ key ∈ w.toList := by
  rw [contains, Option.isSome_iff_ne_none, ne_eq, position?_eq_none_iff, Decidable.not_not]

end PackedRatings.KeyWindow
