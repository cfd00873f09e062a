import PackedRatings.Vector.DraftVector

/-!
# Partial maps over a domain

A `PartialMap` gives some keys of a fixed domain a value. It has no slots, so nothing is left
behind under a key that has no value. `DraftVector.Call` lists the calls that write to a draft,
and `PartialMap.step` says what each of them means.
-/
namespace PackedRatings

namespace DraftVector

/-- A call that writes to a draft. The bulk calls take any map of values. -/
inductive Call : Type 1 where
  | set (key : Int64) (x : Binary64)
  | add (key : Int64) (x : Binary64)
  | unset (key : Int64)
  | clear
  | fill (x : Binary64)
  | scale (factor : Binary64)
  | setAll {μ : Type} [ValueMap μ] (other : μ)
  | addAll {μ : Type} [ValueMap μ] (other : μ)
  | withFallback (fallback : Binary64)

/-- A refusal, or the previous value of the key if the call is about a key that had one. -/
abbrev Answer := Except Failure (Option Binary64)

def Call.run {σ : Type} (step : σ → Call → Answer × σ) (s : σ) : List Call → List Answer × σ
  | [] => ([], s)
  | call :: calls =>
    let (answer, s) := step s call
    let (answers, s) := Call.run step s calls
    (answer :: answers, s)

end DraftVector

@[ext]
structure PartialMap where
  /-- The keys that may have a value. -/
  domain : List Int64
  value? : Int64 → Option Binary64
  /-- What a key without a value reads as. -/
  fallback : Binary64
  ascending : domain.Pairwise (· < ·)
  mem_domain : ∀ key x, value? key = some x → key ∈ domain

namespace PartialMap

def blank (domain : List Int64) (ascending : domain.Pairwise (· < ·)) : PartialMap where
  domain
  value? := fun _ => none
  fallback := 0
  ascending
  mem_domain := nofun

def ofEntries (entries : List (Int64 × Binary64))
    (ascending : (entries.map Prod.fst).Pairwise (· < ·)) (fallback : Binary64) : PartialMap where
  domain := entries.map Prod.fst
  value? := fun key => List.lookup key entries
  fallback
  ascending
  mem_domain := by
    intro key x h
    obtain ⟨before, after, rfl, -⟩ := List.lookup_eq_some_iff.1 h
    simp

def entries (m : PartialMap) : List (Int64 × Binary64) :=
  m.domain.filterMap fun key => (m.value? key).map fun x => (key, x)

theorem mem_entries {m : PartialMap} {key : Int64} {x : Binary64} :
    (key, x) ∈ m.entries ↔ m.value? key = some x := by
  rw [entries, List.mem_filterMap]
  constructor
  · rintro ⟨k, -, hk⟩
    rw [Option.map_eq_some_iff] at hk
    obtain ⟨y, hy, heq⟩ := hk
    cases heq
    exact hy
  · intro h
    exact ⟨key, m.mem_domain key x h, by rw [h, Option.map_some]⟩

theorem entries_eq_nil_iff {m : PartialMap} : m.entries = [] ↔ ∀ key, m.value? key = none := by
  rw [List.eq_nil_iff_forall_not_mem]
  constructor
  · intro h key
    cases hvalue : m.value? key with
    | none => rfl
    | some x => exact absurd (mem_entries.2 hvalue) (h (key, x))
  · rintro h ⟨key, x⟩ hmem
    rw [mem_entries, h key] at hmem
    cases hmem

theorem keys_entries (m : PartialMap) :
    m.entries.map Prod.fst = m.domain.filter fun key => (m.value? key).isSome := by
  rw [entries, List.map_filterMap, ← List.filterMap_eq_filter]
  congr 1
  funext key
  cases hvalue : m.value? key with
  | none => simp [Option.guard, hvalue]
  | some x => simp [Option.guard, hvalue]

/-- Where keys ascend, a key has the value that stands with it. -/
theorem lookup_eq_some_iff_mem {entries : List (Int64 × Binary64)}
    (ascending : (entries.map Prod.fst).Pairwise (· < ·)) {key : Int64} {x : Binary64} :
    entries.lookup key = some x ↔ (key, x) ∈ entries := by
  rw [List.lookup_eq_some_iff]
  constructor
  · rintro ⟨before, after, heq, -⟩
    rw [heq]
    simp
  · intro hmem
    obtain ⟨before, after, heq⟩ := List.append_of_mem hmem
    refine ⟨before, after, heq, fun entry hentry => ?_⟩
    rw [heq, List.map_append, List.pairwise_append] at ascending
    have hlt := ascending.2.2 entry.1 (List.mem_map_of_mem hentry) key (by simp)
    simpa using (Int64.ne_of_lt hlt).symm

/-- The entries determine the values. -/
theorem lookup_entries (m : PartialMap) (key : Int64) : m.entries.lookup key = m.value? key := by
  have hkeys : (m.entries.map Prod.fst).Pairwise (· < ·) := by
    rw [keys_entries]
    exact m.ascending.filter _
  ext x
  rw [lookup_eq_some_iff_mem hkeys]
  exact mem_entries

def update (m : PartialMap) (f : Int64 → Option Binary64 → Option Binary64) : PartialMap where
  domain := m.domain
  value? := fun key => if key ∈ m.domain then f key (m.value? key) else none
  fallback := m.fallback
  ascending := m.ascending
  mem_domain := by
    intro key x h
    split at h
    · assumption
    · cases h

def put (m : PartialMap) (key : Int64) (x : Option Binary64) : PartialMap :=
  m.update fun k previous => if k = key then x else previous

def set (m : PartialMap) (key : Int64) (x : Binary64) : DraftVector.Answer × PartialMap :=
  if key ∈ m.domain then (.ok (m.value? key), m.put key (some x))
  else (.error (.keyNotInDomain key), m)

def add (m : PartialMap) (key : Int64) (x : Binary64) : DraftVector.Answer × PartialMap :=
  if key ∈ m.domain then
    match m.value? key with
    | some previous => (.ok (some previous), m.put key (some (previous + x)))
    | none => (.error (.keyUnset key), m)
  else (.error (.keyNotInDomain key), m)

def unset (m : PartialMap) (key : Int64) : DraftVector.Answer × PartialMap :=
  if key ∈ m.domain then (.ok (m.value? key), m.put key none)
  else (.error (.keyNotInDomain key), m)

/-- What a call means. The bulk calls are calls for one key after the other, of which those
that are refused change nothing. -/
def step (m : PartialMap) : DraftVector.Call → DraftVector.Answer × PartialMap
  | .set key x => m.set key x
  | .add key x => m.add key x
  | .unset key => m.unset key
  | .clear => (.ok none, m.update fun _ _ => none)
  | .fill x => (.ok none, m.update fun _ _ => some x)
  | .scale factor => (.ok none, m.update fun _ previous => previous.map (· * factor))
  | @DraftVector.Call.setAll _ _ other =>
    (.ok none, (ValueMap.entries other).foldl (fun m (key, x) => (m.set key x).2) m)
  | @DraftVector.Call.addAll _ _ other =>
    (.ok none, (ValueMap.entries other).foldl (fun m (key, x) => (m.add key x).2) m)
  | .withFallback fallback => (.ok none, { m with fallback })

end PartialMap

end PackedRatings
