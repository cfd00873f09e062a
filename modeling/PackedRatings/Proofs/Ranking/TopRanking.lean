import PackedRatings.Proofs.Outcome
import PackedRatings.Proofs.Ranking.TopSelection

/-!
# What a finished collector lists

However a collector was used before, finishing it lists as many of the entries that were put
since as its capacity allows, ranked, and leaves none out that scores above a listed one. The
scores are the first of those that a collector of everything lists, and so are the entries
unless scores repeat. A finish is refused exactly if one came before and nothing was put since.
-/
namespace PackedRatings

/-- No entry scores below one that comes after it. -/
abbrev ByRank (entries : List Scored) : Prop :=
  entries.Pairwise fun s t => t.score.rank ≤ s.score.rank

theorem Scored.sortDescending_byRank (entries : List Scored) : ByRank (sortDescending entries) := by
  have hsorted := @List.pairwise_mergeSort _
    (fun s t : Scored => decide (t.score.rank ≤ s.score.rank))
    (fun s t u hst htu => by
      simp only [decide_eq_true_eq] at *
      exact Int.le_trans htu hst)
    (fun s t => by
      simp only [Bool.or_eq_true, decide_eq_true_eq]
      exact Int.le_total _ _)
    entries
  exact hsorted.imp fun h => of_decide_eq_true h

/-- Entries in rank order show one sequence of scores, in whatever order they were given. -/
theorem ByRank.map_score_eq {l₁ l₂ : List Scored} (h₁ : ByRank l₁) (h₂ : ByRank l₂)
    (hperm : l₁.Perm l₂) : l₁.map Scored.score = l₂.map Scored.score := by
  have hscores : ∀ {l}, ByRank l → (l.map Scored.score).Pairwise fun x y => y.rank ≤ x.rank :=
    fun h => List.pairwise_map.2 h
  refine (hperm.map Scored.score).eq_of_pairwise ?_ (hscores h₁) (hscores h₂)
  intro x y _ _ hxy hyx
  exact Binary64.rank_injective (Int.le_antisymm hyx hxy)

theorem eq_of_score_eq {l : List Scored} (hnodup : (l.map Scored.score).Nodup) {s t : Scored}
    (hs : s ∈ l) (ht : t ∈ l) (heq : s.score = t.score) : s = t := by
  induction l with
  | nil => cases hs
  | cons a l ih =>
    rw [List.map_cons, List.nodup_cons] at hnodup
    rcases List.mem_cons.1 hs with rfl | hs'
    · rcases List.mem_cons.1 ht with rfl | ht'
      · rfl
      · exact absurd (heq ▸ List.mem_map_of_mem ht') hnodup.1
    · rcases List.mem_cons.1 ht with rfl | ht'
      · exact absurd (heq ▸ List.mem_map_of_mem hs') hnodup.1
      · exact ih hnodup.2 hs' ht'

/-- If no score repeats, rank order fixes the entries. -/
theorem ByRank.eq_of_nodup {l₁ l₂ : List Scored} (h₁ : ByRank l₁) (h₂ : ByRank l₂)
    (hperm : l₁.Perm l₂) (hnodup : (l₁.map Scored.score).Nodup) : l₁ = l₂ := by
  refine hperm.eq_of_pairwise (fun s t hs ht hst hts => ?_) h₁ h₂
  exact eq_of_score_eq hnodup hs (hperm.symm.subset ht)
    (Binary64.rank_injective (Int.le_antisymm hts hst))

/-- A ranked selection that leaves nothing higher out is the start of the whole ranking. -/
theorem ByRank.eq_take {ranked out puts : List Scored} (hranked : ByRank ranked)
    (hperm : (ranked ++ out).Perm puts)
    (habove : ∀ e ∈ ranked, ∀ o ∈ out, o.score.rank ≤ e.score.rank) :
    ranked.map Scored.score =
        ((Scored.sortDescending puts).map Scored.score).take ranked.length ∧
      ((puts.map Scored.score).Nodup →
        ranked = (Scored.sortDescending puts).take ranked.length) := by
  have hsort : ∀ l, (Scored.sortDescending l).Perm l := fun l => List.mergeSort_perm l _
  have hwhole : ByRank (ranked ++ Scored.sortDescending out) :=
    List.pairwise_append.2 ⟨hranked, Scored.sortDescending_byRank out, fun e he o ho =>
      habove e he o ((hsort out).subset ho)⟩
  have hall : (ranked ++ Scored.sortDescending out).Perm (Scored.sortDescending puts) :=
    ((hsort out).append_left ranked).trans (hperm.trans (hsort puts).symm)
  constructor
  · rw [← hwhole.map_score_eq (Scored.sortDescending_byRank puts) hall, List.map_append]
    exact (List.take_left' (List.length_map _)).symm
  · intro hnodup
    have hnodup' : ((ranked ++ Scored.sortDescending out).map Scored.score).Nodup :=
      ((hall.trans (hsort puts)).map Scored.score).symm.nodup hnodup
    rw [← hwhole.eq_of_nodup (Scored.sortDescending_byRank puts) hall hnodup', List.take_left]

namespace FullCollector

theorem foldl_offer (puts : List Scored) (c : FullCollector) (hopen : c.finished = false) :
    (puts.foldl offer c).entries.toList = c.entries.toList ++ puts ∧
      (puts.foldl offer c).finished = false := by
  induction puts generalizing c with
  | nil => exact ⟨(List.append_nil _).symm, hopen⟩
  | cons entry puts ih =>
    obtain ⟨hentries, hfinished⟩ := ih (c.offer entry) rfl
    refine ⟨?_, hfinished⟩
    rw [List.foldl_cons, hentries, offer, Array.toList_push, List.append_assoc,
      List.singleton_append]

theorem finish_foldl_offer (puts : List Scored) :
    ∃ c', (puts.foldl offer .empty).finish = (.ok (Scored.sortDescending puts), c') := by
  rcases foldl_offer puts .empty rfl with ⟨hentries, hfinished⟩
  rw [finish, hfinished, hentries]
  exact ⟨_, rfl⟩

end FullCollector

namespace TopCollector

/-- The collector is reached from a new one of capacity `n` by puts and finishes. Of the
finishes `finishes` have succeeded, and `puts` have come after the last of them. -/
inductive Reaches (n : Nat) : (finishes : Nat) → (puts : List Scored) → TopCollector → Prop where
  | start : Reaches n 0 [] (ofCapacity n)
  | offer {finishes : Nat} {puts : List Scored} {c : TopCollector} (h : Reaches n finishes puts c)
      (entry : Scored) : Reaches n finishes (puts ++ [entry]) (c.offer entry)
  | finish {finishes : Nat} {puts ranked : List Scored} {c c' : TopCollector}
      (h : Reaches n finishes puts c) (hfinish : c.finish = (.ok ranked, c')) :
      Reaches n (finishes + 1) [] c'
  | finishVector {finishes : Nat} {puts : List Scored} {vector : KeyedVector}
      {c c' : TopCollector} (h : Reaches n finishes puts c)
      (hfinish : c.finishVector = (.ok vector, c')) : Reaches n (finishes + 1) [] c'
  | finishKeys {finishes : Nat} {puts : List Scored} {keys : KeyWindow} {c c' : TopCollector}
      (h : Reaches n finishes puts c) (hfinish : c.finishKeys = (.ok keys, c')) :
      Reaches n (finishes + 1) [] c'

/-- Every finish that succeeds ends with the collector of a plain finish. -/
theorem exists_finish_of_finishVector {c c' : TopCollector} {vector : KeyedVector}
    (h : c.finishVector = (.ok vector, c')) : ∃ ranked, c.finish = (.ok ranked, c') := by
  obtain ⟨hvector, hc'⟩ := Prod.mk.inj h
  obtain ⟨ranked, hranked, -⟩ := bind_eq_ok_iff.1 hvector
  exact ⟨ranked, Prod.ext hranked hc'⟩

theorem exists_finish_of_finishKeys {c c' : TopCollector} {keys : KeyWindow}
    (h : c.finishKeys = (.ok keys, c')) : ∃ ranked, c.finish = (.ok ranked, c') := by
  obtain ⟨hkeys, hc'⟩ := Prod.mk.inj h
  obtain ⟨ranked, hranked, -⟩ := map_eq_ok_iff.1 hkeys
  exact ⟨ranked, Prod.ext hranked hc'⟩

/-- A collector that is finished refuses and stays as it is. -/
theorem finish_of_finished {c : TopCollector} (h : c.finished = true) :
    c.finish = (.error (.invalidOperation "finish"), c) := by
  rw [TopCollector.finish, h]
  rfl

/-- A finish starts a new selection, whatever was selected before. -/
theorem Selects.of_finish {n : Nat} {puts ranked : List Scored} {c c' : TopCollector}
    (h : c.Selects n puts) (hfinish : c.finish = (.ok ranked, c')) :
    c'.Selects n [] ∧ c'.finished = true := by
  cases hopen : c.finished with
  | true =>
    rw [finish_of_finished hopen] at hfinish
    cases hfinish
  | false =>
    obtain ⟨ranked', c₁, hfinish', -, -, hselects, hfinished⟩ := h.finish hopen
    rw [hfinish'] at hfinish
    cases hfinish
    exact ⟨hselects, hfinished⟩

theorem finished_offer (c : TopCollector) (entry : Scored) :
    (c.offer entry).finished = false := by
  rw [TopCollector.offer]
  split
  · split
    · rfl
    · rfl
  · rfl

/-- The selection holds at every point of every run, and a collector is finished exactly
between a finish and the next put. -/
theorem Reaches.selects {n finishes : Nat} {puts : List Scored} {c : TopCollector}
    (h : Reaches n finishes puts c) :
    c.Selects n puts ∧ (c.finished = true ↔ 0 < finishes ∧ puts = []) := by
  have hfinished : ∀ {finishes : Nat} {c' : TopCollector}, c'.finished = true →
      (c'.finished = true ↔ 0 < finishes + 1 ∧ ([] : List Scored) = []) := fun heq =>
    iff_of_true heq ⟨Nat.succ_pos _, rfl⟩
  induction h with
  | start => exact ⟨selects_ofCapacity n, by simp [ofCapacity]⟩
  | offer h entry ih =>
    exact ⟨ih.1.offer entry, by simp [finished_offer]⟩
  | finish h hfinish ih =>
    rcases ih.1.of_finish hfinish with ⟨hselects, heq⟩
    exact ⟨hselects, hfinished heq⟩
  | finishVector h hfinish ih =>
    obtain ⟨ranked, hfinish⟩ := exists_finish_of_finishVector hfinish
    rcases ih.1.of_finish hfinish with ⟨hselects, heq⟩
    exact ⟨hselects, hfinished heq⟩
  | finishKeys h hfinish ih =>
    obtain ⟨ranked, hfinish⟩ := exists_finish_of_finishKeys hfinish
    rcases ih.1.of_finish hfinish with ⟨hselects, heq⟩
    exact ⟨hselects, hfinished heq⟩

/-- What finishing lists, at any point of any run. -/
theorem finish_lists_highest {n finishes : Nat} {puts : List Scored} {c : TopCollector}
    (h : Reaches n finishes puts c) :
    c.size = min puts.length n ∧
      (0 < finishes ∧ puts = [] → c.finish = (.error (.invalidOperation "finish"), c)) ∧
      (finishes = 0 ∨ puts ≠ [] →
        ∃ ranked c', c.finish = (.ok ranked, c') ∧ ranked.length = min puts.length n ∧
          ranked.Pairwise (fun s t => t.score.rank ≤ s.score.rank) ∧
          (∃ out, (ranked ++ out).Perm puts ∧
            ∀ e ∈ ranked, ∀ o ∈ out, o.score.rank ≤ e.score.rank) ∧
          ∃ all full, (puts.foldl FullCollector.offer .empty).finish = (.ok all, full) ∧
            ranked.map Scored.score = (all.map Scored.score).take (min puts.length n) ∧
            ((puts.map Scored.score).Nodup → ranked = all.take (min puts.length n))) := by
  obtain ⟨hselects, hfinished⟩ := h.selects
  refine ⟨hselects.size, ?_, ?_⟩
  · intro hagain
    exact finish_of_finished (hfinished.2 hagain)
  · intro hfirst
    have hopen : c.finished = false := by
      cases hvalue : c.finished with
      | false => rfl
      | true =>
        rcases hfinished.1 hvalue with ⟨hpos, hnil⟩
        rcases hfirst with hzero | hne
        · omega
        · exact absurd hnil hne
    obtain ⟨ranked, c', hfinish, hperm, hranked, -, -⟩ := hselects.finish hopen
    rcases hselects.selection with ⟨out, hselection, habove⟩
    have hlength : ranked.length = min puts.length n := by
      rw [hperm.length_eq, kept, List.length_map, Array.length_toList, ← hselects.size,
        ← hselects.heap_size]
      rfl
    have hputs : (ranked ++ out).Perm puts := (hperm.append_right out).trans hselection
    have hout : ∀ e ∈ ranked, ∀ o ∈ out, o.score.rank ≤ e.score.rank := fun e he =>
      habove e (hperm.subset he)
    obtain ⟨full, hfull⟩ := FullCollector.finish_foldl_offer puts
    have htake := ByRank.eq_take hranked hputs hout
    rw [hlength] at htake
    exact ⟨ranked, c', hfinish, hlength, hranked, ⟨out, hputs, hout⟩, _, full, hfull, htake⟩

/-- Of the scores 2.0, -0.0 and 2.0 the two highest are kept. -/
theorem finish_lists_two_of_three :
    ∃ c ranked c', Reaches 2 0 [⟨4, ⟨0x4000000000000000⟩⟩, ⟨6, .negZero⟩,
        ⟨4, ⟨0x4000000000000000⟩⟩] c ∧ c.finish = (.ok ranked, c') ∧
      c.size = 2 ∧ ranked.length = 2 := by
  have h := ((Reaches.start (n := 2)).offer ⟨4, ⟨0x4000000000000000⟩⟩).offer ⟨6, .negZero⟩
  have h := h.offer ⟨4, ⟨0x4000000000000000⟩⟩
  rcases finish_lists_highest h with ⟨hsize, -, hfinish⟩
  obtain ⟨ranked, c', hfinish, hlength, -⟩ := hfinish (.inl rfl)
  exact ⟨_, ranked, c', h, hfinish, hsize, hlength⟩

/-- A second finish right after the first lists nothing, not even the empty list. -/
theorem second_finish_refused :
    ¬ ∀ n finishes puts c, Reaches n finishes puts c →
      ∃ ranked c', c.finish = (.ok ranked, c') ∧ ranked.length = min puts.length n := by
  intro hall
  rcases hall 2 0 [] _ .start with ⟨ranked, c', hfinish, -⟩
  have hagain := Reaches.start.finish hfinish
  obtain ⟨ranked', c'', hfinish', -⟩ := hall 2 1 [] c' hagain
  rw [finish_of_finished (hagain.selects.2.2 ⟨Nat.zero_lt_one, rfl⟩)] at hfinish'
  cases hfinish'

end TopCollector

end PackedRatings
