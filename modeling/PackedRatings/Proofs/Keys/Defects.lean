import Mathlib.Data.List.Chain
import PackedRatings.Proofs.Keys.Repeats

/-!
# Which keys make a window

Keys are wrapped as they stand, or sorted, or sorted with one kept of each. Keys that are wrapped
must ascend, and the first two neighbours that do not decide how they are refused. Keys that are
sorted must be distinct, and the least one that is repeated is reported, in whatever order they
come. If only one is kept of each, then nothing is refused. Wherever two of the three ways make a
window of the same keys, it is the same window.
-/
namespace PackedRatings

variable {keys : List Int64} {a b : Int64}

/-- `b` comes right after `a` and is not above it, and all neighbours before them ascend. -/
structure FirstFault (keys : List Int64) (a b : Int64) : Prop where
  not_lt : ¬ a < b
  neighbours : ∃ before after, keys = before ++ a :: b :: after ∧
    (before ++ [a]).IsChain (· < ·)

namespace FirstFault

theorem not_nil : ¬ FirstFault [] a b := by
  rintro ⟨-, before, after, hkeys, -⟩
  simp at hkeys

theorem not_singleton (c : Int64) : ¬ FirstFault [c] a b := by
  rintro ⟨-, before, after, hkeys, -⟩
  have hlength := congrArg List.length hkeys
  simp at hlength
  omega

theorem head?_append_singleton {x : Int64} {l before after : List Int64}
    (h : x :: l = before ++ a :: after) : (before ++ [a]).head? = some x := by
  cases before with
  | nil => simp_all
  | cons c before => simp_all

/-- If the first two keys do not ascend, then they are the ones. -/
theorem cons_cons_iff_of_not_lt {x y : Int64} {l : List Int64} (h : ¬ x < y) :
    FirstFault (x :: y :: l) a b ↔ a = x ∧ b = y := by
  constructor
  · rintro ⟨-, before, after, hkeys, hchain⟩
    cases before with
    | nil =>
      simp only [List.nil_append, List.cons.injEq] at hkeys
      exact ⟨hkeys.1.symm, hkeys.2.1.symm⟩
    | cons c before =>
      -- The keys in front of `b` would start with `x` and go on with `y`.
      obtain ⟨rfl, hrest⟩ := List.cons.inj hkeys
      have hlt := (List.isChain_cons.1 hchain).1 y (head?_append_singleton hrest)
      exact absurd hlt h
  · rintro ⟨rfl, rfl⟩
    exact ⟨h, [], l, rfl, .singleton a⟩

/-- If the first two keys ascend, then the first key makes no difference. -/
theorem cons_cons_iff_of_lt {x y : Int64} {l : List Int64} (h : x < y) :
    FirstFault (x :: y :: l) a b ↔ FirstFault (y :: l) a b := by
  constructor
  · rintro ⟨hnot, before, after, hkeys, hchain⟩
    cases before with
    | nil =>
      simp only [List.nil_append, List.cons.injEq] at hkeys
      obtain ⟨rfl, rfl, -⟩ := hkeys
      exact absurd h hnot
    | cons c before =>
      obtain ⟨rfl, hrest⟩ := List.cons.inj hkeys
      exact ⟨hnot, before, after, hrest, (List.isChain_cons.1 hchain).2⟩
  · rintro ⟨hnot, before, after, hkeys, hchain⟩
    refine ⟨hnot, x :: before, after, by rw [hkeys, List.cons_append], ?_⟩
    rw [List.cons_append, List.isChain_cons, head?_append_singleton hkeys]
    simpa [h] using hchain

end FirstFault

def Defect.ofNeighbours (a b : Int64) : Defect :=
  if a = b then .repeated a else .descending

/-- The scan of keys reports the first neighbours that do not ascend. -/
theorem firstDefect_eq_some_iff {defect : Defect} : firstDefect keys = some defect ↔
    ∃ a b, FirstFault keys a b ∧ defect = .ofNeighbours a b := by
  fun_induction firstDefect keys with
  | case1 b l =>
    simp [FirstFault.cons_cons_iff_of_not_lt Int64.lt_irrefl, Defect.ofNeighbours, eq_comm]
  | case2 a b l hne hlt ih => simp only [ih, FirstFault.cons_cons_iff_of_lt hlt]
  | case3 a b l hne hlt =>
    simp [FirstFault.cons_cons_iff_of_not_lt hlt, Defect.ofNeighbours, hne, eq_comm]
  | case4 l hshort =>
    rcases eq_nil_or_singleton hshort with rfl | ⟨c, rfl⟩
    · simp [FirstFault.not_nil]
    · simp [FirstFault.not_singleton]

/-- Keys ascend, or two neighbours are the first that do not. -/
theorem pairwise_or_firstFault (keys : List Int64) :
    keys.Pairwise (· < ·) ∨ ∃ a b, FirstFault keys a b := by
  cases hdefect : firstDefect keys with
  | none => exact .inl (firstDefect_eq_none_iff.1 hdefect)
  | some defect =>
    obtain ⟨a, b, hfault, -⟩ := firstDefect_eq_some_iff.1 hdefect
    exact .inr ⟨a, b, hfault⟩

namespace KeyWindow

variable {w : KeyWindow}

def faultOf (a b : Int64) : Failure :=
  if a = b then .duplicateKey a else .invalidArgument "keys" "expected w[0] < w[1]"

theorem ofAscending_of_firstFault (h : FirstFault keys a b) :
    ofAscending keys = .error (faultOf a b) := by
  have hdefect := firstDefect_eq_some_iff.2 ⟨a, b, h, rfl⟩
  have hwording : Requirement.keysAscend.failure =
      .invalidArgument "keys" "expected w[0] < w[1]" := by decide +kernel
  by_cases heq : a = b
  · rw [Defect.ofNeighbours, if_pos heq] at hdefect
    rw [ofAscending_of_repeated hdefect, faultOf, if_pos heq]
  · rw [Defect.ofNeighbours, if_neg heq] at hdefect
    rw [ofAscending_of_descending hdefect, faultOf, if_neg heq, hwording]

/-- Keys are wrapped as they stand, or the first neighbours that do not ascend are reported. -/
structure WrapsKeys (keys : List Int64) : Prop where
  exists_ok_iff : (∃ w, ofAscending keys = .ok w) ↔ keys.Pairwise (· < ·)
  toList : ∀ w, ofAscending keys = .ok w → w.toList = keys
  error_iff : ∀ failure, ofAscending keys = .error failure ↔
    ∃ a b, FirstFault keys a b ∧ failure = faultOf a b

theorem wrapsKeys (keys : List Int64) : WrapsKeys keys where
  exists_ok_iff := by
    simp only [ofAscending_eq_ok_iff]
    constructor
    · rintro ⟨w, hascending, -⟩
      exact hascending
    · intro hascending
      exact ⟨_, hascending, rfl⟩
  toList := by
    intro w hw
    obtain ⟨hascending, rfl⟩ := ofAscending_eq_ok_iff.1 hw
    exact toList_whole keys hascending
  error_iff := by
    intro failure
    constructor
    · intro hrefused
      rcases pairwise_or_firstFault keys with hascending | ⟨a, b, hfault⟩
      · rw [ofAscending_eq_ok hascending] at hrefused
        cases hrefused
      · rw [ofAscending_of_firstFault hfault] at hrefused
        cases hrefused
        exact ⟨a, b, hfault, rfl⟩
    · rintro ⟨a, b, hfault, rfl⟩
      exact ofAscending_of_firstFault hfault

/-- Keys are sorted in one way only. -/
theorem eq_sortOn_of_perm {sorted : List Int64} (hperm : sorted.Perm keys)
    (hsorted : sorted.Pairwise (· ≤ ·)) : sorted = sortOn id keys := by
  apply (hperm.trans (sortOn_perm id keys).symm).eq_of_pairwise _ hsorted
    (sortOn_pairwise id keys)
  intro a b _ _ hab hba
  exact Int64.le_antisymm hab hba

/-- Looks for a key beside itself in sorted keys, and makes a window of them if there is none. -/
def ofScanned (sorted : List Int64) (hsorted : sorted.Pairwise (· ≤ ·)) :
    Except Failure KeyWindow :=
  match hscan : firstRepeat? sorted with
  | some key => .error (.duplicateKey key)
  | none =>
    .ok (whole sorted (pairwise_lt_of_sorted hsorted ((firstRepeat?_eq_none_iff hsorted).1 hscan)))

/-- Sorted keys need to be scanned for repeated keys only. -/
theorem ofScanned_eq {sorted : List Int64} (hsorted : sorted.Pairwise (· ≤ ·)) :
    ofScanned sorted hsorted = ofAscending sorted := by
  rw [ofScanned]
  split
  · rename_i key hscan
    exact (ofAscending_of_leastRepeated hsorted ((firstRepeat?_eq_some_iff hsorted).1 hscan)).symm
  · exact (ofAscending_eq_ok _).symm

theorem ofUnique_of_leastRepeated {key : Int64} (h : LeastRepeated keys key) :
    ofUnique keys = .error (.duplicateKey key) :=
  ofAscending_of_leastRepeated (sortOn_pairwise id keys)
    ((LeastRepeated.perm_iff (sortOn_perm id keys)).2 h)

/-- The keys are sorted, or the least one that is repeated is reported, in whatever order they
come and however they are sorted. -/
structure SortsKeys (keys : List Int64) : Prop where
  exists_ok_iff : (∃ w, ofUnique keys = .ok w) ↔ keys.Nodup
  toList : ∀ w, ofUnique keys = .ok w → w.toList.Perm keys ∧ w.toList.Pairwise (· < ·)
  error_iff : ∀ failure, ofUnique keys = .error failure ↔
    ∃ key, LeastRepeated keys key ∧ failure = .duplicateKey key
  anyOrder : ∀ keys', keys'.Perm keys → ofUnique keys' = ofUnique keys
  anySort : ∀ sorted, sorted.Perm keys → ∀ hsorted : sorted.Pairwise (· ≤ ·),
    ofScanned sorted hsorted = ofUnique keys

theorem sortsKeys (keys : List Int64) : SortsKeys keys where
  exists_ok_iff := exists_ofUnique_eq_ok_iff
  toList := fun w hw => ⟨perm_of_ofUnique hw, w.toList_pairwise⟩
  error_iff := by
    intro failure
    constructor
    · intro hrefused
      rcases nodup_or_leastRepeated keys with hnodup | ⟨key, hkey⟩
      · obtain ⟨w, hw⟩ := exists_ofUnique_eq_ok_iff.2 hnodup
        cases hrefused.symm.trans hw
      · cases hrefused.symm.trans (ofUnique_of_leastRepeated hkey)
        exact ⟨key, hkey, rfl⟩
    · rintro ⟨key, hkey, rfl⟩
      exact ofUnique_of_leastRepeated hkey
  anyOrder := by
    intro keys' hperm
    rw [ofUnique, ofUnique,
      eq_sortOn_of_perm ((sortOn_perm id keys').trans hperm) (sortOn_pairwise id keys')]
  anySort := by
    intro sorted hperm hsorted
    rw [ofScanned_eq, ofUnique, ← eq_sortOn_of_perm hperm hsorted]

/-- Every key that occurs is kept once, in whatever order and however often the keys come. -/
structure KeepsOneOfEach (keys : List Int64) : Prop where
  count : ∀ key, (ofRepeating keys).toList.count key = if key ∈ keys then 1 else 0
  ascending : (ofRepeating keys).toList.Pairwise (· < ·)
  anyOrder : ∀ keys', (∀ key, key ∈ keys' ↔ key ∈ keys) → ofRepeating keys' = ofRepeating keys
  anySort : ∀ sorted, sorted.Perm keys → sorted.Pairwise (· ≤ ·) →
    (ofRepeating keys).toList = firstOfRuns id sorted

theorem keepsOneOfEach (keys : List Int64) : KeepsOneOfEach keys where
  count := by
    intro key
    have hnodup : (ofRepeating keys).toList.Nodup :=
      (ofRepeating keys).toList_pairwise.imp Int64.ne_of_lt
    rw [hnodup.count]
    simp only [mem_toList_ofRepeating]
  ascending := (ofRepeating keys).toList_pairwise
  anyOrder := fun _ => ofRepeating_congr
  anySort := by
    intro sorted hperm hsorted
    rw [ofRepeating, toList_whole, eq_sortOn_of_perm hperm hsorted]

/-- Two ways that both make a window of the keys make the same. -/
structure WaysAgree (keys : List Int64) : Prop where
  ofUnique_ofAscending : ∀ w w', ofUnique keys = .ok w → ofAscending keys = .ok w' → w = w'
  ofUnique_ofRepeating : ∀ w, ofUnique keys = .ok w → w = ofRepeating keys
  ofAscending_ofRepeating : ∀ w, ofAscending keys = .ok w → w = ofRepeating keys

theorem eq_ofRepeating_of_ofUnique (h : ofUnique keys = .ok w) : w = ofRepeating keys := by
  obtain ⟨hascending, rfl⟩ := ofAscending_eq_ok_iff.1 h
  rw [← ofRepeating_eq_whole hascending]
  exact ofRepeating_congr fun key => (sortOn_perm id keys).mem_iff

theorem eq_ofRepeating_of_ofAscending (h : ofAscending keys = .ok w) : w = ofRepeating keys := by
  obtain ⟨hascending, rfl⟩ := ofAscending_eq_ok_iff.1 h
  exact (ofRepeating_eq_whole hascending).symm

theorem waysAgree (keys : List Int64) : WaysAgree keys where
  ofUnique_ofAscending := by
    intro w w' hw hw'
    rw [eq_ofRepeating_of_ofUnique hw, eq_ofRepeating_of_ofAscending hw']
  ofUnique_ofRepeating := fun _ => eq_ofRepeating_of_ofUnique
  ofAscending_ofRepeating := fun _ => eq_ofRepeating_of_ofAscending

/-- Each of the three ways makes a window of exactly the keys that it should, refuses all others
for the reason that comes first, and agrees with the other two. -/
theorem windows_of_keys (keys : List Int64) :
    SortsKeys keys ∧ KeepsOneOfEach keys ∧ WrapsKeys keys ∧ WaysAgree keys :=
  ⟨sortsKeys keys, keepsOneOfEach keys, wrapsKeys keys, waysAgree keys⟩

/-- Two keys repeat, and the first neighbours descend. -/
theorem windows_of_keys_two_repeats :
    ofUnique [7, 3, 7, 1, 3] = .error (.duplicateKey 3) ∧
      (ofRepeating [7, 3, 7, 1, 3]).toList = [1, 3, 7] ∧
      ofAscending [7, 3, 7, 1, 3] = .error (.invalidArgument "keys" "expected w[0] < w[1]") := by
  obtain ⟨hsorts, hkeeps, hwraps, -⟩ := windows_of_keys [7, 3, 7, 1, 3]
  have hleast : LeastRepeated [7, 3, 7, 1, 3] 3 := by
    refine ⟨by decide, fun k hk => ?_⟩
    have hmem := hk.mem
    simp only [List.mem_cons, List.not_mem_nil, or_false] at hmem
    rcases hmem with rfl | rfl | rfl | rfl | rfl
    all_goals
      revert hk
      decide
  have hfault : FirstFault [7, 3, 7, 1, 3] 7 3 :=
    ⟨by decide, [], [7, 1, 3], rfl, .singleton 7⟩
  refine ⟨(hsorts.error_iff _).2 ⟨3, hleast, rfl⟩, ?_, (hwraps.error_iff _).2 ⟨7, 3, hfault, rfl⟩⟩
  exact hkeeps.anySort [1, 3, 3, 7, 7] (by decide) (by decide)

end KeyWindow

end PackedRatings
