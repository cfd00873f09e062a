import PackedRatings.Proofs.Ranking.LifeCycle
import PackedRatings.Proofs.Vector.Restrictions

/-!
# Vectors and sets of what was collected

A finish makes a vector or a set of the ranked entries. Sorting them by key keeps the entries of
a key in rank order, so the vector gives each key the first of them, which is its highest score.
What a bounded collector leaves out scores above nothing that it keeps, and so a key that it
keeps at all it keeps with the highest score that was put for the key.
-/
namespace PackedRatings

namespace Scored

variable {ranked ranked' entries entries' out : List Scored} {s t : Scored} {v : KeyedVector}
  {key : Int64} {x : Binary64}

/-- The entry is there, and no entry of its key has a higher score. -/
def IsBest (entries : List Scored) (entry : Scored) : Prop :=
  entry ∈ entries ∧
    ∀ other ∈ entries, other.key = entry.key → other.score.rank ≤ entry.score.rank

theorem isBest_congr (h : entries.Perm entries') : IsBest entries s ↔ IsBest entries' s := by
  simp only [IsBest, h.mem_iff]

theorem IsBest.eq (hs : IsBest entries s) (ht : IsBest entries t) (hkey : s.key = t.key) :
    s = t := by
  have hscore : s.score = t.score :=
    Binary64.rank_injective (Int.le_antisymm (ht.2 s hs.1 hkey) (hs.2 t ht.1 hkey.symm))
  cases s
  cases t
  cases hkey
  cases hscore
  rfl

theorem isBest_of_head?_withKey (hranked : ByRank ranked)
    (h : (withKey Scored.key ranked key).head? = some s) : IsBest ranked s := by
  obtain ⟨hmem, rfl⟩ := of_head?_withKey h
  obtain ⟨rest, hrest⟩ := List.head?_eq_some_iff.1 h
  have hbyRank : ByRank (withKey Scored.key ranked s.key) := hranked.filter _
  refine ⟨hmem, ?_⟩
  intro other hother hkey
  have hlist : other ∈ withKey Scored.key ranked s.key := mem_withKey.2 ⟨hother, hkey⟩
  rw [hrest] at hlist hbyRank
  cases List.mem_cons.1 hlist with
  | inl heq => rw [heq]
  | inr hlater => exact (List.pairwise_cons.1 hbyRank).1 other hlater

/-- In a ranked list the first entry of a key is its best one. -/
theorem head?_withKey_eq_some_iff (hranked : ByRank ranked) :
    (withKey Scored.key ranked s.key).head? = some s ↔ IsBest ranked s := by
  constructor
  · exact isBest_of_head?_withKey hranked
  · intro hbest
    obtain ⟨t, ht⟩ := exists_head?_withKey Scored.key hbest.1
    rw [ht, (isBest_of_head?_withKey hranked ht).eq hbest (of_head?_withKey ht).2]

/-- What is left out scores above nothing that is kept, so the best of all entries of a key that
is kept is the best of those that are kept. -/
theorem isBest_iff_of_selection (hperm : (ranked ++ out).Perm entries)
    (habove : ∀ e ∈ ranked, ∀ o ∈ out, o.score.rank ≤ e.score.rank) :
    IsBest ranked s ↔ IsBest entries s ∧ s.key ∈ ranked.map Scored.key := by
  rw [← isBest_congr hperm]
  constructor
  · rintro ⟨hmem, hbest⟩
    refine ⟨⟨List.mem_append_left out hmem, ?_⟩, List.mem_map_of_mem hmem⟩
    intro other hother hkey
    cases List.mem_append.1 hother with
    | inl hkept => exact hbest other hkept hkey
    | inr hout => exact habove s hmem other hout
  · rintro ⟨hbest, hkept⟩
    obtain ⟨e, he, hkey⟩ := List.mem_map.1 hkept
    cases List.mem_append.1 hbest.1 with
    | inl hranked =>
      exact ⟨hranked, fun other hother => hbest.2 other (List.mem_append_left out hother)⟩
    | inr hout =>
      -- An entry `e` of the key is kept, so it scores at least as high as `s` and equals it.
      have he' : IsBest (ranked ++ out) e := by
        refine ⟨List.mem_append_left out he, ?_⟩
        intro other hother hsame
        exact Int.le_trans (hbest.2 other hother (hsame.trans hkey)) (habove e he s hout)
      rw [← he'.eq hbest hkey]
      exact ⟨he, fun other hother => he'.2 other (List.mem_append_left out hother)⟩

/-- The pairs of the vector of a ranked list. -/
def firsts (ranked : List Scored) : List (Int64 × Binary64) :=
  firstOfRuns Prod.fst (sortOn Prod.fst (ranked.map fun s => (s.key, s.score)))

theorem firsts_ascending (ranked : List Scored) :
    (firsts ranked).Pairwise fun a b => a.1 < b.1 :=
  firstOfRuns_pairwise (sortOn_pairwise Prod.fst _)

theorem mem_firsts_iff (hranked : ByRank ranked) :
    (key, x) ∈ firsts ranked ↔ IsBest ranked ⟨key, x⟩ := by
  have hpairs : withKey Prod.fst (ranked.map fun s => (s.key, s.score)) key =
      (withKey Scored.key ranked key).map fun s => (s.key, s.score) :=
    List.filter_map
  rw [firsts, mem_firstOfRuns_sortOn_iff, hpairs, List.head?_map, Option.map_eq_some_iff,
    ← head?_withKey_eq_some_iff hranked]
  constructor
  · rintro ⟨s, hhead, heq⟩
    cases heq
    exact hhead
  · intro hhead
    exact ⟨⟨key, x⟩, hhead, rfl⟩

theorem mem_map_fst_firsts_iff : key ∈ (firsts ranked).map Prod.fst ↔
    key ∈ ranked.map Scored.key := by
  rw [firsts, mem_map_firstOfRuns_sortOn_iff, List.map_map]
  rfl

theorem firsts_congr (hranked : ByRank ranked) (hranked' : ByRank ranked')
    (hperm : ranked.Perm ranked') : firsts ranked = firsts ranked' := by
  apply eq_of_mem_iff_of_ascending (firsts_ascending ranked) (firsts_ascending ranked')
  rintro ⟨key, x⟩
  rw [mem_firsts_iff hranked, mem_firsts_iff hranked', isBest_congr hperm]

theorem entries_toVector (h : toVector ranked = .ok v) :
    v.entries = firsts ranked ∧ v.fallback = 0 := by
  obtain ⟨hentries, hfallback⟩ := KeyedVector.entries_of_ofPairs h
  refine ⟨?_, hfallback⟩
  rw [hentries]
  apply List.mergeSort_of_pairwise
  exact (firsts_ascending ranked).imp fun hlt => decide_eq_true (Int64.le_of_lt hlt)

theorem value?_toVector_eq_some_iff (h : toVector ranked = .ok v) (hranked : ByRank ranked) :
    v.value? key = some x ↔ IsBest ranked ⟨key, x⟩ := by
  rw [KeyedVector.value?_eq_some_iff, (entries_toVector h).1, mem_firsts_iff hranked]

theorem contains_toVector_iff (h : toVector ranked = .ok v) :
    v.contains key = true ↔ key ∈ ranked.map Scored.key := by
  rw [KeyedVector.contains, KeyWindow.contains_iff, ← v.map_fst_entries, (entries_toVector h).1,
    mem_map_fst_firsts_iff]

/-- The vector of a selection shows the entries of the vector of everything that have the keys
of the selection. -/
theorem toVector_restricts {view : KeyedVector} (hview : toVector ranked = .ok view)
    (hv : toVector entries = .ok v) (hranked : ByRank ranked) (hentries : ByRank entries)
    (hbest : ∀ s, IsBest ranked s ↔ IsBest entries s ∧ s.key ∈ ranked.map Scored.key) :
    view.Restricts v fun key => decide (key ∈ ranked.map Scored.key) := by
  apply KeyedVector.restricts_of_entries
  · rw [(entries_toVector hview).1, (entries_toVector hv).1]
    apply eq_of_mem_iff_of_ascending (firsts_ascending ranked)
      ((firsts_ascending entries).filter _)
    rintro ⟨key, x⟩
    rw [List.mem_filter, mem_firsts_iff hranked, mem_firsts_iff hentries, hbest,
      decide_eq_true_eq]
  · rw [(entries_toVector hview).2, (entries_toVector hv).2]

end Scored

namespace ScoreCollector

open Scored

variable {σ : Type} [ScoreCollector σ] {c : σ} {ranked : List Scored}

structure Results where
  ranked : List Scored
  vector : KeyedVector
  keys : KeyWindow

structure Finishes (c : σ) (results : Results) : Prop where
  ranked : (finish c).1 = .ok results.ranked
  vector : (finishVector c).1 = .ok results.vector
  keys : (finishKeys c).1 = .ok results.keys

theorem exists_finishes (h : (finish c).1 = .ok ranked) :
    ∃ v, toVector ranked = .ok v ∧ Finishes c ⟨ranked, v, toKeys ranked⟩ := by
  obtain ⟨v, hv⟩ := exists_toVector_eq_ok ranked
  refine ⟨v, hv, h, ?_, ?_⟩
  · rw [finishVector_eq, h]
    exact hv
  · rw [finishKeys_eq, h]
    rfl

def Results.KeysOfList (results : Results) : Prop :=
  results.keys.toList.Pairwise (· < ·) ∧
    ∀ key, key ∈ results.keys.toList ↔ key ∈ results.ranked.map Scored.key

theorem keysOfList (ranked : List Scored) (v : KeyedVector) :
    Results.KeysOfList ⟨ranked, v, toKeys ranked⟩ :=
  ⟨(toKeys ranked).toList_pairwise, fun _ => KeyWindow.mem_toList_ofRepeating⟩

/-- How the finishes of a collector of the `n` highest scores and those of a collector of
everything compare if `puts` was put into both. -/
structure Agree (n : Nat) (puts : List Scored) (top full : Results) : Prop where
  all_listed : full.ranked.Perm puts
  value?_full : ∀ key x, full.vector.value? key = some x ↔ IsBest puts ⟨key, x⟩
  contains_full : ∀ key, full.vector.contains key = true ↔ key ∈ puts.map Scored.key
  value?_top : ∀ key x, top.vector.value? key = some x ↔
    IsBest puts ⟨key, x⟩ ∧ key ∈ top.ranked.map Scored.key
  contains_top : ∀ key, top.vector.contains key = true ↔ key ∈ top.ranked.map Scored.key
  restricts : top.vector.Restricts full.vector fun key => key ∈ top.ranked.map Scored.key
  keys_top : top.KeysOfList
  keys_full : full.KeysOfList
  of_room : puts.length ≤ n →
    top.vector = full.vector ∧ top.keys = full.keys ∧ top.ranked.Perm full.ranked

theorem agree_of_selection {n : Nat} {puts all out : List Scored} {v w : KeyedVector}
    (hranked : ByRank ranked) (hall : ByRank all) (hperm : (ranked ++ out).Perm puts)
    (habove : ∀ e ∈ ranked, ∀ o ∈ out, o.score.rank ≤ e.score.rank)
    (hroom : puts.length ≤ n → out = []) (hputs : all.Perm puts)
    (hv : toVector ranked = .ok v) (hw : toVector all = .ok w) :
    Agree n puts ⟨ranked, v, toKeys ranked⟩ ⟨all, w, toKeys all⟩ where
  all_listed := hputs
  value?_full := by
    intro key x
    rw [value?_toVector_eq_some_iff hw hall, isBest_congr hputs]
  contains_full := by
    intro key
    rw [contains_toVector_iff hw, (hputs.map Scored.key).mem_iff]
  value?_top := by
    intro key x
    rw [value?_toVector_eq_some_iff hv hranked, isBest_iff_of_selection hperm habove]
  contains_top := fun key => contains_toVector_iff hv
  restricts := by
    apply toVector_restricts hv hw hranked hall
    intro s
    exact isBest_iff_of_selection (hperm.trans hputs.symm) habove
  keys_top := keysOfList ranked v
  keys_full := keysOfList all w
  of_room := by
    intro hle
    rw [hroom hle, List.append_nil] at hperm
    have hsame : ranked.Perm all := hperm.trans hputs.symm
    have hvectors : toVector ranked = toVector all :=
      congrArg KeyedVector.ofPairs (firsts_congr hranked hall hsame)
    refine ⟨Except.ok.inj (hv.symm.trans (hvectors.trans hw)), ?_, hsame⟩
    exact KeyWindow.ofRepeating_congr fun key => (hsame.map Scored.key).mem_iff

end ScoreCollector

theorem FullCollector.entries_after (history : List ScoreCollector.Call) :
    (ScoreCollector.after empty history).entries.toList = ScoreCollector.pending history := by
  induction history using List.reverseRecOn with
  | nil => rfl
  | append_singleton history call ih =>
    rw [ScoreCollector.after_concat]
    cases call with
    | offer entry =>
      rw [ScoreCollector.pending_offer, ← ih]
      exact Array.toList_push
    | size =>
      rw [ScoreCollector.pending_size]
      exact ih
    | finish output =>
      rw [ScoreCollector.pending_finish]
      have hnew : ScoreCollector.finished empty = false := rfl
      cases hfinished : ScoreCollector.finished (ScoreCollector.after empty history) with
      | true =>
        rw [ScoreCollector.step_of_finished hfinished, ih]
        exact ScoreCollector.pending_of_spent
          ((ScoreCollector.finished_after_iff hnew history).1 hfinished)
      | false =>
        obtain ⟨ranked, hfinish⟩ := (ScoreCollector.step_of_open hfinished output).1
        have hsize := (ScoreCollector.finish_leaves hfinish).2
        exact List.eq_nil_of_length_eq_zero hsize

namespace ScoreCollector

/-- The highest of the pending entries are listed by rank, and all of them if there is room. -/
theorem exists_selection (n : Nat) {history : List Call} (h : ¬ Spent history) :
    ∃ ranked out, (finish (after (TopCollector.ofCapacity n) history)).1 = .ok ranked ∧
      ByRank ranked ∧ (ranked ++ out).Perm (pending history) ∧
      (∀ e ∈ ranked, ∀ o ∈ out, o.score.rank ≤ e.score.rank) ∧
      ((pending history).length ≤ n → out = []) := by
  have hselects := TopCollector.selects_after n history
  have hnew : finished (TopCollector.ofCapacity n) = false := rfl
  obtain ⟨ranked, c', hfinish, hperm, hranked, -, -⟩ := hselects.finish (open_after hnew h)
  obtain ⟨out, hselection, habove⟩ := hselects.selection
  have hputs := (hperm.append_right out).trans hselection
  refine ⟨ranked, out, congrArg Prod.fst hfinish, hranked, hputs, ?_, ?_⟩
  · intro e he
    exact habove e (hperm.subset he)
  · intro hroom
    have hlength := hselection.length_eq
    have hheap := hselects.heap_size
    have hsize := hselects.size
    rw [List.length_append, TopCollector.kept, List.length_map, Array.length_toList] at hlength
    rw [SlotHeap.size] at hheap
    exact List.eq_nil_of_length_eq_zero (by omega)

/-- At every point of every run at which a finish is not refused, the vectors and the sets of a
collector of the highest scores and of a collector of everything agree. -/
theorem finishes_agree (n : Nat) {history : List Call} (h : ¬ Spent history) :
    ∃ top full, Finishes (after (TopCollector.ofCapacity n) history) top ∧
      Finishes (after FullCollector.empty history) full ∧
      Agree n (pending history) top full := by
  obtain ⟨ranked, out, htop, hranked, hperm, habove, hroom⟩ := exists_selection n h
  have hfull : (finish (after FullCollector.empty history)).1 =
      .ok (Scored.sortDescending (pending history)) := by
    have hnew : finished FullCollector.empty = false := rfl
    have hopen : FullCollector.finished (after FullCollector.empty history) = false :=
      open_after hnew h
    change (FullCollector.finish _).1 = _
    rw [FullCollector.finish, hopen, FullCollector.entries_after]
    rfl
  obtain ⟨v, hv, hfinishes⟩ := exists_finishes htop
  obtain ⟨w, hw, hfinishes'⟩ := exists_finishes hfull
  exact ⟨_, _, hfinishes, hfinishes', agree_of_selection hranked
    (Scored.sortDescending_byRank _) hperm habove hroom (List.mergeSort_perm _ _) hv hw⟩

def tiedScores : List Call :=
  [.offer ⟨7, .nan⟩, .finish .list, .offer ⟨5, 0⟩, .offer ⟨7, 0⟩]

/-- The lists order the tied keys differently, the vectors and the sets are the same. -/
theorem finishes_agree_tiedScores :
    ¬ Spent tiedScores ∧ ∃ top full, Finishes (after (TopCollector.ofCapacity 2) tiedScores) top ∧
      Finishes (after FullCollector.empty tiedScores) full ∧
      top.ranked = [⟨7, 0⟩, ⟨5, 0⟩] ∧ full.ranked = [⟨5, 0⟩, ⟨7, 0⟩] ∧
      top.vector = full.vector ∧ top.keys = full.keys := by
  have hspent : ¬ Spent tiedScores := by decide
  obtain ⟨top, full, htop, hfull, hagree⟩ := finishes_agree 2 hspent
  have hlist : (finish (after (TopCollector.ofCapacity 2) tiedScores)).1.toOption =
      some [⟨7, 0⟩, ⟨5, 0⟩] := by decide +kernel
  have hlist' : (finish (after FullCollector.empty tiedScores)).1 =
      .ok [⟨5, 0⟩, ⟨7, 0⟩] := by
    change Except.ok (Scored.sortDescending [⟨5, 0⟩, ⟨7, 0⟩]) = _
    rw [Scored.sortDescending, List.mergeSort_of_pairwise (by decide)]
  rw [htop.ranked] at hlist
  rw [hfull.ranked] at hlist'
  obtain ⟨hvector, hkeys, -⟩ := hagree.of_room (by decide)
  exact ⟨hspent, top, full, htop, hfull, Option.some.inj hlist, Except.ok.inj hlist', hvector,
    hkeys⟩

end ScoreCollector

end PackedRatings
