import PackedRatings.Proofs.Keys.Construction
import PackedRatings.Vector.KeyedVector

/-!
# Vectors of pairs

Pairs make a vector if none of their keys repeats.
-/
namespace PackedRatings.KeyedVector

theorem exists_ofPairs_eq_ok {pairs : List (Int64 × Binary64)}
    (h : (pairs.map Prod.fst).Nodup) : ∃ v, ofPairs pairs = .ok v := by
  have hascending := map_sortOn_pairwise h
  have hkeys := KeyWindow.ofAscending_eq_ok hascending
  have hlength : ((sortOn Prod.fst pairs).map Prod.snd).length =
      (KeyWindow.whole _ hascending).length := by
    rw [← KeyWindow.length_toList, KeyWindow.toList_whole, List.length_map, List.length_map]
  rw [ofPairs]
  rw [hkeys]
  exact ⟨_, dif_pos hlength⟩

end PackedRatings.KeyedVector
