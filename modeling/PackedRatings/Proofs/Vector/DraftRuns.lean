import PackedRatings.Proofs.Keys.Construction
import PackedRatings.Proofs.Outcome
import PackedRatings.Proofs.Vector.PartialMap
import PackedRatings.Proofs.Vector.SlotMembers

/-!
# Drafts are partial maps

What can be read from a draft is `DraftVector.toMap`, in which the values of slots that are not
assigned do not occur. Each call changes it as the call means for partial maps, so a run of
calls on a draft gives the answers of the same run on a partial map, and ends with a draft that
reads like the map.
-/
namespace PackedRatings

namespace DraftVector

variable {d : DraftVector}

theorem slotValue?_eq (d : DraftVector) (i : Fin d.domain.length) :
    d.slotValue? i =
      if d.assigned.contains i then some (getElem d.slots i.val i.isLt) else none :=
  rfl

/-- A key has a slot or is not in the domain. -/
theorem key_cases (d : DraftVector) (key : Int64) :
    (∃ i, d.domain.keyAt i = key ∧ d.domain.position? key = some i ∧ key ∈ d.domain.toList ∧
      d.value? key = d.slotValue? i) ∨
    (d.domain.position? key = none ∧ key ∉ d.domain.toList ∧ d.value? key = none) := by
  cases hposition : d.domain.position? key with
  | none =>
    exact .inr ⟨rfl, KeyWindow.position?_eq_none_iff.1 hposition, by rw [value?, hposition]⟩
  | some i =>
    have hkey := KeyWindow.position?_eq_some_iff.1 hposition
    exact .inl ⟨i, hkey, rfl, KeyWindow.mem_toList.2 ⟨i, hkey⟩, by rw [value?, hposition]⟩

theorem value?_keyAt (d : DraftVector) (i : Fin d.domain.length) :
    d.value? (d.domain.keyAt i) = d.slotValue? i := by
  rw [value?, KeyWindow.position?_eq_some_iff.2 rfl]

def toMap (d : DraftVector) : PartialMap where
  domain := d.domain.toList
  value? := d.value?
  fallback := d.fallback
  ascending := d.domain.toList_pairwise
  mem_domain := by
    intro key x h
    rcases d.key_cases key with ⟨i, -, -, hkey, -⟩ | ⟨-, -, hvalue⟩
    · exact hkey
    · rw [hvalue] at h
      cases h

/-- A key has a slot, which the map reads, or is not in the domain. -/
theorem toMap_cases (d : DraftVector) (key : Int64) :
    (∃ i, d.domain.keyAt i = key ∧ d.domain.position? key = some i ∧ key ∈ d.toMap.domain ∧
      d.toMap.value? key = d.slotValue? i) ∨
    (d.domain.position? key = none ∧ key ∉ d.toMap.domain) := by
  rcases d.key_cases key with hslot | ⟨hposition, hkey, -⟩
  · exact .inl hslot
  · exact .inr ⟨hposition, hkey⟩

/-- Slots that are written so that each reads as `f` says change the map as `f` says. -/
theorem toMap_write {slots : Vector Binary64 d.domain.length} {assigned : SlotSet d.domain.length}
    {f : Int64 → Option Binary64 → Option Binary64}
    (h : ∀ i, (if assigned.contains i then some (getElem slots i.val i.isLt) else none) =
      f (d.domain.keyAt i) (d.slotValue? i)) :
    toMap { d with slots, assigned } = d.toMap.update f := by
  ext : 1
  · rfl
  · funext key
    change ({ d with slots, assigned } : DraftVector).value? key =
      if key ∈ d.domain.toList then f key (d.value? key) else none
    rcases d.key_cases key with ⟨i, rfl, -, hkey, hvalue⟩ | ⟨hposition, hkey, -⟩
    · rw [if_pos hkey, hvalue, ← h i]
      exact value?_keyAt { d with slots, assigned } i
    · rw [if_neg hkey, value?, hposition]
  · rfl

theorem keyAt_eq_iff {i j : Fin d.domain.length} :
    d.domain.keyAt j = d.domain.keyAt i ↔ j = i := by
  constructor
  · exact d.domain.keyAt_injective
  · intro h
    rw [h]

theorem toMap_assign (i : Fin d.domain.length) (x : Binary64) :
    (d.assign i x).toMap = d.toMap.put (d.domain.keyAt i) (some x) := by
  apply toMap_write
  intro j
  simp only [keyAt_eq_iff, SlotSet.contains_insert]
  by_cases hj : j = i
  · subst hj
    simp
  · have hval : i.val ≠ j.val := fun h => hj (Fin.ext h.symm)
    simp [slotValue?_eq, hj, hval]

theorem toMap_overwrite {i : Fin d.domain.length} (h : d.assigned.contains i = true)
    (x : Binary64) : (d.overwrite i x).toMap = d.toMap.put (d.domain.keyAt i) (some x) := by
  apply toMap_write
  intro j
  simp only [keyAt_eq_iff]
  by_cases hj : j = i
  · subst hj
    simp [h]
  · have hval : i.val ≠ j.val := fun h => hj (Fin.ext h.symm)
    simp [slotValue?_eq, hj, hval]

theorem toMap_erase (i : Fin d.domain.length) :
    toMap { d with assigned := d.assigned.erase i } = d.toMap.put (d.domain.keyAt i) none := by
  apply toMap_write
  intro j
  simp only [keyAt_eq_iff, SlotSet.contains_erase]
  by_cases hj : j = i
  · simp [hj]
  · simp [slotValue?_eq, hj]

theorem toMap_clear :
    toMap { d with assigned := d.assigned.clear } = d.toMap.update fun _ _ => none := by
  apply toMap_write
  intro i
  simp

theorem toMap_fill (x : Binary64) :
    toMap { d with slots := Vector.replicate _ x, assigned := d.assigned.fill } =
      d.toMap.update fun _ _ => some x := by
  apply toMap_write
  intro i
  simp

theorem checkOpen_eq (h : d.frozen = false) : d.checkOpen = .ok () := by
  rw [checkOpen, h]
  rfl

theorem checkOpen_of_frozen (h : d.frozen = true) : d.checkOpen = .error .frozen := by
  rw [checkOpen, h]
  rfl

/-- Freezing succeeds once, and gives what a snapshot gives. -/
theorem freeze_eq_ok_iff {v : KeyedVector} {frozen : DraftVector} :
    d.freeze = (.ok v, frozen) ↔
      d.frozen = false ∧ v = d.snapshot ∧ frozen = { d with frozen := true } := by
  cases h : d.frozen with
  | true => simp [freeze, checkOpen_of_frozen h]
  | false =>
    rw [freeze, checkOpen_eq h]
    constructor
    · intro heq
      cases heq
      exact ⟨rfl, rfl, rfl⟩
    · rintro ⟨-, rfl, rfl⟩
      rfl

theorem exists_scale_eq_ok (h : d.frozen = false) (factor : Binary64) :
    ∃ scaled, d.scale factor = (.ok (), scaled) ∧ scaled.frozen = false ∧
      scaled.toMap = d.toMap.update fun _ previous => previous.map (· * factor) := by
  rw [scale, checkOpen_eq h]
  refine ⟨_, rfl, h, ?_⟩
  apply toMap_write
  intro i
  by_cases hset : d.assigned.contains i = true
  · simp [slotValue?_eq, hset]
  · simp [slotValue?_eq, hset]

theorem toMap_withFallback (fallback : Binary64) :
    (d.withFallback fallback).toMap = { d.toMap with fallback } := by
  ext : 1
  · rfl
  · funext key
    change (d.withFallback fallback).value? key = d.value? key
    rcases d.key_cases key with ⟨i, rfl, -, -, hvalue⟩ | ⟨hposition, -, hvalue⟩
    · rw [hvalue]
      exact value?_keyAt (d.withFallback fallback) i
    · rw [hvalue, value?, show (d.withFallback fallback).domain.position? key = none from hposition]
  · rfl

/-- The answer to a call whose result tells a previous value in this way. -/
def answered {α : Type} (previous : α → Option Binary64)
    (result : Except Failure α × DraftVector) : Answer × DraftVector :=
  (result.1.map previous, result.2)

def step (d : DraftVector) : Call → Answer × DraftVector
  | .set key x => d.set key x
  | .add key x => answered some (d.add key x)
  | .unset key => d.unset key
  | .clear => answered (fun _ => none) d.clear
  | .fill x => answered (fun _ => none) (d.fill x)
  | .scale factor => answered (fun _ => none) (d.scale factor)
  | @Call.setAll _ _ other => answered (fun _ => none) (d.setAll other)
  | @Call.addAll _ _ other => answered (fun _ => none) (d.addAll other)
  | .withFallback fallback => (.ok none, d.withFallback fallback)

/-- A draft that is not frozen has answered a call and can be read as `meaning` says. -/
structure Means (result : Answer × DraftVector) (meaning : Answer × PartialMap) : Prop where
  answer : result.1 = meaning.1
  toMap : result.2.toMap = meaning.2
  notFrozen : result.2.frozen = false

theorem slotOf_eq (h : d.frozen = false) (key : Int64) :
    d.slotOf key = match d.domain.position? key with
      | some i => .ok i
      | none => .error (.keyNotInDomain key) := by
  rw [slotOf, checkOpen_eq h]
  rfl

theorem set_means (h : d.frozen = false) (key : Int64) (x : Binary64) :
    Means (d.set key x) (d.toMap.set key x) := by
  rw [set, slotOf_eq h, PartialMap.set]
  rcases d.toMap_cases key with ⟨i, rfl, hposition, hkey, hvalue⟩ | ⟨hposition, hkey⟩
  · rw [hposition, if_pos hkey]
    exact ⟨congrArg Except.ok hvalue.symm, toMap_assign i x, h⟩
  · rw [hposition, if_neg hkey]
    exact ⟨rfl, rfl, h⟩

theorem add_means (h : d.frozen = false) (key : Int64) (x : Binary64) :
    Means (answered some (d.add key x)) (d.toMap.add key x) := by
  rw [add, slotOf_eq h, PartialMap.add]
  rcases d.toMap_cases key with ⟨i, rfl, hposition, hkey, hvalue⟩ | ⟨hposition, hkey⟩
  · rw [hposition, if_pos hkey, hvalue, slotValue?_eq]
    by_cases hset : d.assigned.contains i = true
    · rw [if_pos hset]
      simp only [if_pos hset]
      exact ⟨rfl, toMap_overwrite hset _, h⟩
    · rw [if_neg hset]
      simp only [if_neg hset]
      exact ⟨rfl, rfl, h⟩
  · rw [hposition, if_neg hkey]
    exact ⟨rfl, rfl, h⟩

theorem unset_means (h : d.frozen = false) (key : Int64) :
    Means (d.unset key) (d.toMap.unset key) := by
  rw [unset, slotOf_eq h, PartialMap.unset]
  rcases d.toMap_cases key with ⟨i, rfl, hposition, hkey, hvalue⟩ | ⟨hposition, hkey⟩
  · rw [hposition, if_pos hkey]
    exact ⟨congrArg Except.ok hvalue.symm, toMap_erase i, h⟩
  · rw [hposition, if_neg hkey]
    exact ⟨rfl, rfl, h⟩

theorem toMap_assignKey (key : Int64) (x : Binary64) :
    (d.assignKey key x).toMap = (d.toMap.set key x).2 := by
  rw [assignKey, PartialMap.set]
  rcases d.toMap_cases key with ⟨i, rfl, hposition, hkey, -⟩ | ⟨hposition, hkey⟩
  · rw [hposition, if_pos hkey]
    exact toMap_assign i x
  · rw [hposition, if_neg hkey]

theorem toMap_addKey (key : Int64) (x : Binary64) :
    (d.addKey key x).toMap = (d.toMap.add key x).2 := by
  rw [addKey, PartialMap.add]
  rcases d.toMap_cases key with ⟨i, rfl, hposition, hkey, hvalue⟩ | ⟨hposition, hkey⟩
  · rw [hposition, if_pos hkey, hvalue, slotValue?_eq]
    by_cases hset : d.assigned.contains i = true
    · simp only [if_pos hset]
      exact toMap_overwrite hset _
    · simp only [if_neg hset]
  · rw [hposition, if_neg hkey]

theorem frozen_assignKey (key : Int64) (x : Binary64) :
    (d.assignKey key x).frozen = d.frozen := by
  rw [assignKey]
  split
  · rfl
  · rfl

theorem frozen_addKey (key : Int64) (x : Binary64) : (d.addKey key x).frozen = d.frozen := by
  rw [addKey]
  split
  · split
    · rfl
    · rfl
  · rfl

/-- Entries that are written one after the other change the map one after the other. -/
theorem foldl_means (write : DraftVector → Int64 → Binary64 → DraftVector)
    (mean : PartialMap → Int64 → Binary64 → PartialMap)
    (hmap : ∀ d key x, (write d key x).toMap = mean d.toMap key x)
    (hfrozen : ∀ d key x, (write d key x).frozen = d.frozen)
    (entries : List (Int64 × Binary64)) (h : d.frozen = false) :
    Means (.ok none, entries.foldl (fun d (key, x) => write d key x) d)
      (.ok none, entries.foldl (fun m (key, x) => mean m key x) d.toMap) := by
  induction entries generalizing d with
  | nil => exact ⟨rfl, rfl, h⟩
  | cons entry entries ih =>
    have hrest := ih ((hfrozen d entry.1 entry.2).trans h)
    rw [hmap] at hrest
    exact hrest

/-- Every call on a draft means what it means for partial maps. -/
theorem step_means (h : d.frozen = false) (call : Call) :
    Means (d.step call) (d.toMap.step call) := by
  cases call with
  | set key x => exact set_means h key x
  | add key x => exact add_means h key x
  | unset key => exact unset_means h key
  | clear =>
    rw [step, clear, checkOpen_eq h]
    exact ⟨rfl, toMap_clear, h⟩
  | fill x =>
    rw [step, fill, checkOpen_eq h]
    exact ⟨rfl, toMap_fill x, h⟩
  | scale factor =>
    obtain ⟨scaled, hscale, hopen, hmap⟩ := exists_scale_eq_ok h factor
    rw [step, hscale]
    exact ⟨rfl, hmap, hopen⟩
  | setAll other =>
    rw [step, setAll, checkOpen_eq h]
    exact foldl_means assignKey (fun m key x => (m.set key x).2) (fun _ => toMap_assignKey)
      (fun _ => frozen_assignKey) _ h
  | addAll other =>
    rw [step, addAll, checkOpen_eq h]
    exact foldl_means addKey (fun m key x => (m.add key x).2) (fun _ => toMap_addKey)
      (fun _ => frozen_addKey) _ h
  | withFallback fallback =>
    exact ⟨rfl, toMap_withFallback fallback, h⟩

theorem run_means (h : d.frozen = false) (calls : List Call) :
    (Call.run step d calls).1 = (Call.run PartialMap.step d.toMap calls).1 ∧
      (Call.run step d calls).2.toMap = (Call.run PartialMap.step d.toMap calls).2 := by
  induction calls generalizing d with
  | nil => exact ⟨rfl, rfl⟩
  | cons call calls ih =>
    have hstep := step_means h call
    have hrest := ih hstep.notFrozen
    rw [hstep.toMap] at hrest
    simp only [Call.run, hstep.answer, hrest, and_self]

/-- Everything that is read from `d` is what `m` has. -/
structure ReadsLike (d : DraftVector) (m : PartialMap) : Prop where
  value? : ∀ key, d.value? key = m.value? key
  value : ∀ key, d.value key = (m.value? key).getD m.fallback
  contains : ∀ key, d.contains key = (m.value? key).isSome
  entries : d.entries = m.entries
  keys : d.keys = m.entries.map Prod.fst
  ascending : d.keys.Pairwise (· < ·)
  length : d.length = m.entries.length
  empty : d.length = 0 ↔ ∀ key, m.value? key = none

theorem entries_toMap (d : DraftVector) : d.toMap.entries = d.entries := by
  have hassigned : d.assigned.toList = (List.finRange d.domain.length).filterMap
      (Option.guard fun i => d.assigned.contains i) := by
    rw [List.filterMap_eq_filter, SlotSet.toList_eq_filter]
  rw [PartialMap.entries, show d.toMap.domain = _ from d.domain.toList_eq_map, List.filterMap_map,
    entries, hassigned, List.map_filterMap]
  congr 1
  funext i
  simp only [Function.comp_apply, show d.toMap.value? _ = _ from value?_keyAt d i, slotValue?_eq,
    Option.guard]
  split
  · rfl
  · rfl

theorem readsLike_toMap (d : DraftVector) : d.ReadsLike d.toMap where
  value? := fun _ => rfl
  value := fun _ => rfl
  contains := fun _ => rfl
  entries := d.entries_toMap.symm
  keys := by
    rw [entries_toMap]
    rfl
  ascending := d.keys_pairwise
  length := by
    rw [entries_toMap, entries, List.length_map]
    exact d.assigned.size_eq_length_toList
  empty := by
    have hempty := PartialMap.entries_eq_nil_iff (m := d.toMap)
    rw [entries_toMap, ← List.length_eq_zero_iff, entries, List.length_map,
      ← d.assigned.size_eq_length_toList] at hempty
    exact hempty

theorem toMap_ofDomain (w : KeyWindow) :
    (ofDomain w).toMap = .blank w.toList w.toList_pairwise := by
  ext : 1
  · exact KeyWindow.toList_whole _ _
  · funext key
    change (ofDomain w).value? key = none
    rcases (ofDomain w).key_cases key with ⟨i, -, -, -, hvalue⟩ | ⟨-, -, hvalue⟩
    · have hunassigned : (ofDomain w).assigned.contains i = false := SlotSet.contains_empty i
      rw [hvalue, slotValue?_eq, hunassigned]
      rfl
    · exact hvalue
  · rfl

theorem keyAt_compact (w : KeyWindow) (i : Fin w.compact.length) :
    w.compact.keyAt i = w.keyAt (i.cast w.length_compact) := by
  have hkeys : w.compact.toList = w.toList := KeyWindow.toList_whole _ _
  have hlt : i.val < w.compact.toList.length := by
    rw [KeyWindow.length_toList]
    exact i.isLt
  rw [← KeyWindow.getElem_toList w.compact hlt, List.getElem_of_eq hkeys hlt,
    KeyWindow.getElem_toList]
  rfl

theorem entries_ofVector (v : KeyedVector) : (ofVector v).entries = v.entries := by
  have hassigned : (ofVector v).assigned.toList = List.finRange (ofVector v).domain.length :=
    SlotSet.toList_of_size_eq rfl
  rw [entries, hassigned]
  apply List.ext_getElem
  · simp [ofVector, KeyedVector.entries]
  · intro i hi hi'
    simp only [List.getElem_map, List.getElem_finRange, KeyedVector.entries, ofVector,
      keyAt_compact]
    exact Prod.ext rfl (Vector.getElem_ofFn _)

theorem toMap_ofVector (v : KeyedVector) (h : (v.entries.map Prod.fst).Pairwise (· < ·)) :
    (ofVector v).toMap = .ofEntries v.entries h v.fallback := by
  ext : 1
  · change v.keys.compact.toList = v.entries.map Prod.fst
    rw [KeyedVector.map_fst_entries]
    exact KeyWindow.toList_whole _ _
  · funext key
    rw [← PartialMap.lookup_entries, entries_toMap, entries_ofVector]
    rfl
  · rfl

/-- Whatever calls are made, `d` gives the answers of `m` and then reads like it. -/
def RunsLike (d : DraftVector) (m : PartialMap) : Prop :=
  ∀ calls, (Call.run step d calls).1 = (Call.run PartialMap.step m calls).1 ∧
    (Call.run step d calls).2.ReadsLike (Call.run PartialMap.step m calls).2

theorem runsLike_toMap (h : d.frozen = false) : d.RunsLike d.toMap := by
  intro calls
  obtain ⟨hanswers, hmap⟩ := run_means h calls
  rw [← hmap]
  exact ⟨hanswers, readsLike_toMap _⟩

theorem entries_ascending (v : KeyedVector) : (v.entries.map Prod.fst).Pairwise (· < ·) := by
  rw [KeyedVector.map_fst_entries]
  exact v.keys.toList_pairwise

/-- Any keys make a draft unless one of them is repeated. -/
theorem exists_ofKeys_eq_ok_iff {keys : List Int64} :
    (∃ d, ofKeys keys = .ok d) ↔ keys.Nodup := by
  rw [← KeyWindow.exists_ofUnique_eq_ok_iff]
  simp only [ofKeys, bind_eq_ok_iff, pure_eq_ok_iff]
  constructor
  · rintro ⟨-, w, hw, -⟩
    exact ⟨w, hw⟩
  · rintro ⟨w, hw⟩
    exact ⟨ofDomain w, w, hw, rfl⟩

/-- Every new draft runs like the partial map that its domain, its keys or its vector give. -/
theorem new_runsLike_map :
    (∀ w : KeyWindow, (ofDomain w).RunsLike (.blank w.toList w.toList_pairwise)) ∧
      (∀ keys d, ofKeys keys = .ok d → ∃ (domain : List Int64) (h : domain.Pairwise (· < ·)),
        domain.Perm keys ∧ d.RunsLike (.blank domain h)) ∧
      ∀ v : KeyedVector,
        (ofVector v).RunsLike (.ofEntries v.entries (entries_ascending v) v.fallback) := by
  refine ⟨fun w => ?_, fun keys d hd => ?_, fun v => ?_⟩
  · rw [← toMap_ofDomain]
    exact runsLike_toMap rfl
  · simp only [ofKeys, bind_eq_ok_iff, pure_eq_ok_iff] at hd
    obtain ⟨w, hw, rfl⟩ := hd
    have hruns : (ofDomain w).RunsLike (.blank w.toList w.toList_pairwise) := by
      rw [← toMap_ofDomain]
      exact runsLike_toMap rfl
    exact ⟨w.toList, w.toList_pairwise, KeyWindow.perm_of_ofUnique hw, hruns⟩
  · rw [← toMap_ofVector]
    exact runsLike_toMap rfl

def resetCalls : List Call :=
  [.set 3 .nan, .unset 3, .add 3 .nan, .set 3 0, .add 2 .nan, .setAll [((4 : Int64), Binary64.nan)]]

/-- Zero is a value, and a value that was taken away does not come back. -/
theorem new_runsLike_map_resetCalls : ∃ d, ofKeys [5, 1, 3] = .ok d ∧
    (Call.run step d resetCalls).1 = [.ok none, .ok (some .nan), .error (.keyUnset 3), .ok none,
      .error (.keyNotInDomain 2), .ok none] ∧
    (Call.run step d resetCalls).2.entries = [(3, 0)] := by
  obtain ⟨d, hd⟩ := exists_ofKeys_eq_ok_iff.2 (show [5, 1, 3].Nodup by decide)
  obtain ⟨domain, hascending, hperm, hruns⟩ := new_runsLike_map.2.1 [5, 1, 3] d hd
  have hdomain : domain = [1, 3, 5] :=
    eq_of_perm_of_ascending (hperm.trans (by decide)) hascending (by decide)
  subst hdomain
  obtain ⟨hanswers, hreads⟩ := hruns resetCalls
  refine ⟨d, hd, ?_⟩
  rw [hanswers, hreads.entries]
  exact ⟨rfl, rfl⟩

end DraftVector

end PackedRatings
