import PackedRatings.Proofs.Vector.OrderedMaps
import PackedRatings.Proofs.Vector.SlotRuns

/-!
# Bulk calls are calls for single keys

A bulk call goes over the slots, over the bits of the assigned slots or over the entries of
another map, and changes many slots at once. Each key has a cell, and a call for one key rewrites
the cell of this key only. As a draft is determined by its cells, a bulk call and calls for single
keys lead to the same draft if they rewrite every cell in the same way.
-/
namespace PackedRatings

/-- What a slot holds. Its value stays there while it is not assigned. -/
@[ext]
structure Cell where
  value : Binary64
  assigned : Bool
  deriving DecidableEq

namespace Cell

def assign (x : Binary64) (_ : Cell) : Cell :=
  ⟨x, true⟩

def add (x : Binary64) (c : Cell) : Cell :=
  if c.assigned then { c with value := c.value + x } else c

def erase (c : Cell) : Cell :=
  { c with assigned := false }

def scale (factor : Binary64) (c : Cell) : Cell :=
  if c.assigned then { c with value := c.value * factor } else c

def only (key : Int64) (f : Cell → Cell) (k : Int64) : Cell → Cell :=
  if k = key then f else id

@[simp] theorem only_self (key : Int64) (f : Cell → Cell) : only key f key = f :=
  if_pos rfl

theorem only_of_ne {key k : Int64} (h : k ≠ key) (f : Cell → Cell) : only key f k = id :=
  if_neg h

/-- The cells of different keys are changed in any order. -/
theorem only_comm {key key' : Int64} (h : key ≠ key') (f g : Cell → Cell) (k : Int64) (c : Cell) :
    only key f k (only key' g k c) = only key' g k (only key f k c) := by
  by_cases hk : k = key
  · rw [hk, only_of_ne h]
    rfl
  · rw [only_of_ne hk]
    rfl

section Runs

variable {α : Type u} {key : α → Int64} {f : α → Cell → Cell} {l : List α}

/-- Changes to other keys leave the cell of `k` as it is. -/
theorem foldl_only_of_not_mem {k : Int64} (h : k ∉ l.map key) (c : Cell) :
    l.foldl (fun c a => only (key a) (f a) k c) c = c := by
  induction l with
  | nil => rfl
  | cons a l ih =>
    simp only [List.map_cons, List.mem_cons, not_or] at h
    rw [List.foldl_cons, only_of_ne h.1]
    exact ih h.2

/-- If every key is changed once, then each cell is changed once. -/
theorem foldl_only_of_mem (hnodup : (l.map key).Nodup) {a : α} (ha : a ∈ l) (c : Cell) :
    l.foldl (fun c b => only (key b) (f b) (key a) c) c = f a c := by
  induction l with
  | nil => cases ha
  | cons b l ih =>
    obtain ⟨hb, hrest⟩ := List.nodup_cons.1 hnodup
    rw [List.foldl_cons]
    rcases List.mem_cons.1 ha with rfl | ha
    · rw [foldl_only_of_not_mem hb, only_self]
    · have hne : key a ≠ key b := fun heq => hb (heq ▸ List.mem_map_of_mem ha)
      rw [only_of_ne hne]
      exact ih hrest ha

end Runs

end Cell

namespace DraftVector

open Cell

variable {d e e' : DraftVector} {f g : Int64 → Cell → Cell} {key : Int64}

def cell (d : DraftVector) (i : Fin d.domain.length) : Cell :=
  ⟨d.slots.get i, d.assigned.contains i⟩

theorem cell_eq (d : DraftVector) (i : Fin d.domain.length) :
    d.cell i = ⟨getElem d.slots i.val i.isLt, d.assigned.contains i⟩ :=
  rfl

def cell? (d : DraftVector) (key : Int64) : Option Cell :=
  (d.domain.position? key).map d.cell

theorem cell?_keyAt (d : DraftVector) (i : Fin d.domain.length) :
    d.cell? (d.domain.keyAt i) = some (d.cell i) := by
  rw [cell?, KeyWindow.position?_eq_some_iff.2 rfl, Option.map_some]

theorem mem_toList_of_cell? {c : Cell} (h : d.cell? key = some c) : key ∈ d.domain.toList := by
  obtain ⟨i, hposition, -⟩ := Option.map_eq_some_iff.1 h
  exact KeyWindow.mem_toList.2 ⟨i, KeyWindow.position?_eq_some_iff.1 hposition⟩

/-- The assigned cells are the entries. -/
theorem mem_entries_iff_cell? {x : Binary64} :
    (key, x) ∈ d.entries ↔ d.cell? key = some ⟨x, true⟩ := by
  rw [← value?_eq_some_iff, value?, cell?]
  cases d.domain.position? key with
  | none => simp
  | some i =>
    change (if d.assigned.contains i then some (getElem d.slots i.val i.isLt) else none) =
        some x ↔
      some (d.cell i) = some ⟨x, true⟩
    simp [cell_eq, and_comm]

/-- A draft is determined by its cells. -/
theorem eq_of_cell?_eq (hdomain : d.domain = e.domain) (hfallback : d.fallback = e.fallback)
    (hfrozen : d.frozen = e.frozen) (hcell? : ∀ key, d.cell? key = e.cell? key) : d = e := by
  obtain ⟨domain, slots, assigned, fallback, frozen, compact⟩ := d
  obtain ⟨_, slots', assigned', _, _, _⟩ := e
  cases hdomain
  cases hfallback
  cases hfrozen
  have hcell : ∀ i, (⟨getElem slots i.val i.isLt, assigned.contains i⟩ : Cell) =
      ⟨getElem slots' i.val i.isLt, assigned'.contains i⟩ := by
    intro i
    have hkey := hcell? (domain.keyAt i)
    rw [cell?_keyAt, cell?_keyAt, Option.some_inj] at hkey
    exact hkey
  have hslots : slots = slots' := by
    ext i hi : 1
    exact congrArg Cell.value (hcell ⟨i, hi⟩)
  have hassigned : assigned = assigned' :=
    SlotSet.eq_of_contains_eq fun i => congrArg Cell.assigned (hcell i)
  rw [hslots, hassigned]

/-- `e` is `d` with the cell of each key rewritten by `f`. -/
structure Rewrites (d : DraftVector) (f : Int64 → Cell → Cell) (e : DraftVector) : Prop where
  domain : e.domain = d.domain
  fallback : e.fallback = d.fallback
  frozen : e.frozen = d.frozen
  cell? : ∀ key, e.cell? key = (d.cell? key).map (f key)

namespace Rewrites

theorem congr (hf : d.Rewrites f e) (h : ∀ key c, d.cell? key = some c → f key c = g key c) :
    d.Rewrites g e := by
  refine ⟨hf.domain, hf.fallback, hf.frozen, fun key => ?_⟩
  rw [hf.cell?]
  cases hcell : d.cell? key with
  | none => rfl
  | some c => exact congrArg some (h key c hcell)

/-- Cells that are rewritten in the same way make the same draft. -/
theorem unique (h : d.Rewrites f e) (h' : d.Rewrites f e') : e = e' := by
  apply eq_of_cell?_eq
  · rw [h.domain, h'.domain]
  · rw [h.fallback, h'.fallback]
  · rw [h.frozen, h'.frozen]
  · intro key
    rw [h.cell?, h'.cell?]

theorem refl (d : DraftVector) : d.Rewrites (fun _ c => c) d :=
  ⟨rfl, rfl, rfl, fun key => by rw [Option.map_id']⟩

theorem trans (hf : d.Rewrites f e) (hg : e.Rewrites g e') :
    d.Rewrites (fun key c => g key (f key c)) e' where
  domain := hg.domain.trans hf.domain
  fallback := hg.fallback.trans hf.fallback
  frozen := hg.frozen.trans hf.frozen
  cell? := by
    intro key
    rw [hg.cell?, hf.cell?, Option.map_map]
    rfl

/-- A change that leaves the cell of its key as it is changes nothing. -/
theorem of_map_eq {f : Cell → Cell} (h : (d.cell? key).map f = d.cell? key) :
    d.Rewrites (only key f) d := by
  refine ⟨rfl, rfl, rfl, fun k => ?_⟩
  by_cases hk : k = key
  · rw [hk, only_self, h]
  · rw [only_of_ne hk, Option.map_id, id]

/-- A key outside of the domain has no cell. -/
theorem of_position?_eq_none (h : d.domain.position? key = none) (f : Cell → Cell) :
    d.Rewrites (only key f) d := by
  apply of_map_eq
  rw [DraftVector.cell?, h]
  rfl

/-- Nothing is added to a cell that is not assigned. -/
theorem of_unassigned {i : Fin d.domain.length} (h : ¬ d.assigned.contains i = true)
    (x : Binary64) : d.Rewrites (only (d.domain.keyAt i) (Cell.add x)) d := by
  apply of_map_eq
  rw [cell?_keyAt]
  simp [Cell.add, cell_eq, h]

end Rewrites

/-- Slots whose cells are as `f` says rewrite the draft. -/
theorem rewrites_of_slots {slots : Vector Binary64 d.domain.length}
    {assigned : SlotSet d.domain.length}
    (h : ∀ i, (⟨getElem slots i.val i.isLt, assigned.contains i⟩ : Cell) =
      f (d.domain.keyAt i) (d.cell i)) :
    d.Rewrites f { d with slots, assigned } := by
  refine ⟨rfl, rfl, rfl, fun key => ?_⟩
  change (d.domain.position? key).map _ = ((d.domain.position? key).map d.cell).map (f key)
  cases hposition : d.domain.position? key with
  | none => rfl
  | some i =>
    rw [← KeyWindow.position?_eq_some_iff.1 hposition]
    exact congrArg some (h i)

theorem rewrites_assign (i : Fin d.domain.length) (x : Binary64) :
    d.Rewrites (only (d.domain.keyAt i) (Cell.assign x)) (d.assign i x) := by
  apply rewrites_of_slots
  intro j
  rw [only, SlotSet.contains_insert]
  by_cases hj : j = i
  · subst hj
    simp [Cell.assign]
  · have hval : i.val ≠ j.val := fun h => hj (Fin.ext h.symm)
    simp [cell_eq, keyAt_eq_iff, hj, hval]

theorem rewrites_overwrite {i : Fin d.domain.length} (h : d.assigned.contains i = true)
    (x : Binary64) :
    d.Rewrites (only (d.domain.keyAt i) (Cell.add x))
      (d.overwrite i (getElem d.slots i.val i.isLt + x)) := by
  apply rewrites_of_slots
  intro j
  rw [only]
  by_cases hj : j = i
  · subst hj
    simp [Cell.add, cell_eq, h]
  · have hval : i.val ≠ j.val := fun h => hj (Fin.ext h.symm)
    simp [cell_eq, keyAt_eq_iff, hj, hval]

theorem rewrites_erase (i : Fin d.domain.length) :
    d.Rewrites (only (d.domain.keyAt i) Cell.erase) { d with assigned := d.assigned.erase i } := by
  apply rewrites_of_slots
  intro j
  rw [only, SlotSet.contains_erase]
  by_cases hj : j = i
  · simp [Cell.erase, cell_eq, hj]
  · simp [cell_eq, keyAt_eq_iff, hj]

theorem rewrites_clear :
    d.Rewrites (fun _ => Cell.erase) { d with assigned := d.assigned.clear } := by
  apply rewrites_of_slots
  intro i
  simp [Cell.erase, cell_eq]

theorem rewrites_fill (x : Binary64) : d.Rewrites (fun _ => Cell.assign x)
    { d with slots := Vector.replicate _ x, assigned := d.assigned.fill } := by
  apply rewrites_of_slots
  intro i
  simp [Cell.assign]

theorem exists_scale_rewrites (h : d.frozen = false) (factor : Binary64) :
    ∃ e, d.scale factor = (.ok (), e) ∧ d.Rewrites (fun _ => Cell.scale factor) e := by
  rw [scale, checkOpen_eq h]
  refine ⟨_, rfl, ?_⟩
  apply rewrites_of_slots
  intro i
  by_cases hset : d.assigned.contains i = true
  · simp [Cell.scale, cell_eq, hset]
  · simp [Cell.scale, cell_eq, hset]

theorem rewrites_assignKey (d : DraftVector) (key : Int64) (x : Binary64) :
    d.Rewrites (only key (Cell.assign x)) (d.assignKey key x) := by
  rw [assignKey]
  rcases d.key_cases key with ⟨i, rfl, hposition, -, -⟩ | ⟨hposition, -, -⟩
  · rw [hposition]
    exact rewrites_assign i x
  · rw [hposition]
    exact .of_position?_eq_none hposition _

theorem rewrites_addKey (d : DraftVector) (key : Int64) (x : Binary64) :
    d.Rewrites (only key (Cell.add x)) (d.addKey key x) := by
  rw [addKey]
  rcases d.key_cases key with ⟨i, rfl, hposition, -, -⟩ | ⟨hposition, -, -⟩
  · rw [hposition]
    by_cases hset : d.assigned.contains i = true
    · simp only [if_pos hset]
      exact rewrites_overwrite hset x
    · simp only [if_neg hset]
      exact .of_unassigned hset x
  · rw [hposition]
    exact .of_position?_eq_none hposition _

/-- The draft as a call leaves it, if it is not refused or only for one of the causes `skipped`. -/
def skipping {α : Type} (skipped : List Failure) (result : Except Failure α × DraftVector) :
    Except Failure DraftVector :=
  match result with
  | (.ok _, d) => .ok d
  | (.error failure, d) => if failure ∈ skipped then .ok d else .error failure

theorem exists_set_rewrites (h : d.frozen = false) {skipped : List Failure}
    (hkey : key ∈ d.domain.toList ∨ .keyNotInDomain key ∈ skipped) (x : Binary64) :
    ∃ e, skipping skipped (d.set key x) = .ok e ∧ d.Rewrites (only key (Cell.assign x)) e := by
  rw [set, slotOf_eq h]
  rcases d.key_cases key with ⟨i, rfl, hposition, -, -⟩ | ⟨hposition, houtside, -⟩
  · rw [hposition]
    exact ⟨_, rfl, rewrites_assign i x⟩
  · rw [hposition]
    exact ⟨d, if_pos (hkey.resolve_left houtside), .of_position?_eq_none hposition _⟩

theorem exists_add_rewrites (h : d.frozen = false) (key : Int64) (x : Binary64) :
    ∃ e, skipping [.keyNotInDomain key, .keyUnset key] (d.add key x) = .ok e ∧
      d.Rewrites (only key (Cell.add x)) e := by
  rw [add, slotOf_eq h]
  rcases d.key_cases key with ⟨i, rfl, hposition, -, -⟩ | ⟨hposition, -, -⟩
  · rw [hposition]
    by_cases hset : d.assigned.contains i = true
    · simp only [if_pos hset]
      exact ⟨_, rfl, rewrites_overwrite hset x⟩
    · simp only [if_neg hset]
      exact ⟨d, if_pos (by simp), .of_unassigned hset x⟩
  · rw [hposition]
    exact ⟨d, if_pos (by simp), .of_position?_eq_none hposition _⟩

theorem exists_unset_rewrites (h : d.frozen = false) (hkey : key ∈ d.domain.toList) :
    ∃ e, skipping [] (d.unset key) = .ok e ∧ d.Rewrites (only key Cell.erase) e := by
  rw [unset, slotOf_eq h]
  rcases d.key_cases key with ⟨i, rfl, hposition, -, -⟩ | ⟨-, houtside, -⟩
  · rw [hposition]
    exact ⟨_, rfl, rewrites_erase i⟩
  · exact absurd hkey houtside

section Runs

variable {α : Type} {change : α → Int64 → Cell → Cell} {l : List α}

theorem rewrites_foldl {write : DraftVector → α → DraftVector}
    (hwrite : ∀ (e : DraftVector) a, e.Rewrites (change a) (write e a)) (l : List α)
    (d : DraftVector) :
    d.Rewrites (fun key c => l.foldl (fun c a => change a key c) c) (l.foldl write d) := by
  induction l generalizing d with
  | nil => exact .refl d
  | cons a l ih => exact (hwrite d a).trans (ih (write d a))

/-- Calls that succeed and rewrite cells do so one after the other. -/
theorem exists_foldlM_rewrites {call : DraftVector → α → Except Failure DraftVector}
    (hcall : ∀ a ∈ l, ∀ e : DraftVector, e.domain = d.domain → e.frozen = false →
      ∃ e', call e a = .ok e' ∧ e.Rewrites (change a) e') (h : d.frozen = false) :
    ∃ e, l.foldlM call d = .ok e ∧
      d.Rewrites (fun key c => l.foldl (fun c a => change a key c) c) e := by
  induction l generalizing d with
  | nil => exact ⟨d, rfl, .refl d⟩
  | cons a l ih =>
    obtain ⟨e, he, hfirst⟩ := hcall a List.mem_cons_self d rfl h
    have hlater : ∀ b ∈ l, ∀ e₁ : DraftVector, e₁.domain = e.domain → e₁.frozen = false →
        ∃ e₂, call e₁ b = .ok e₂ ∧ e₁.Rewrites (change b) e₂ := by
      intro b hb e₁ hdomain
      exact hcall b (List.mem_cons_of_mem a hb) e₁ (hdomain.trans hfirst.domain)
    obtain ⟨e', he', hrest⟩ := ih hlater (hfirst.frozen.trans h)
    refine ⟨e', ?_, hfirst.trans hrest⟩
    rw [List.foldlM_cons, he]
    exact he'

/-- Calls lead to the draft of writes that rewrite the same cells. -/
theorem foldlM_eq_ok_foldl {call : DraftVector → α → Except Failure DraftVector}
    {write : DraftVector → α → DraftVector}
    (hcall : ∀ a ∈ l, ∀ e : DraftVector, e.domain = d.domain → e.frozen = false →
      ∃ e', call e a = .ok e' ∧ e.Rewrites (change a) e')
    (hwrite : ∀ (e : DraftVector) a, e.Rewrites (change a) (write e a)) (h : d.frozen = false) :
    l.foldlM call d = .ok (l.foldl write d) := by
  obtain ⟨e, he, hrewrites⟩ := exists_foldlM_rewrites hcall h
  rw [he, hrewrites.unique (rewrites_foldl hwrite l d)]

/-- Writes for distinct keys lead to the same draft in any order. -/
theorem foldl_perm {write : DraftVector → α → DraftVector} {key : α → Int64} {f : α → Cell → Cell}
    {l' : List α} (hwrite : ∀ (e : DraftVector) a, e.Rewrites (only (key a) (f a)) (write e a))
    (hperm : l.Perm l') (hnodup : (l.map key).Nodup) (d : DraftVector) :
    l.foldl write d = l'.foldl write d := by
  apply hperm.foldl_eq'
  intro a ha b hb e
  by_cases hkey : key a = key b
  · rw [List.inj_on_of_nodup_map hnodup ha hb hkey]
  · have hab := (hwrite e a).trans (hwrite (write e a) b)
    have hba := (hwrite e b).trans (hwrite (write e b) a)
    apply (hab.congr _).unique hba
    intro k c _
    exact only_comm (Ne.symm hkey) (f b) (f a) k c

end Runs

/-- Sets one key after the other and skips those outside of the domain. -/
def setEach (d : DraftVector) (pairs : List (Int64 × Binary64)) : Except Failure DraftVector :=
  pairs.foldlM (fun d pair => skipping [.keyNotInDomain pair.1] (d.set pair.1 pair.2)) d

/-- Adds to one key after the other and skips those outside of the domain or without a value. -/
def addEach (d : DraftVector) (pairs : List (Int64 × Binary64)) : Except Failure DraftVector :=
  pairs.foldlM (fun d pair =>
    skipping [.keyNotInDomain pair.1, .keyUnset pair.1] (d.add pair.1 pair.2)) d

/-- Each bulk call leaves the draft that calls for single keys leave, one after the other. Entries
with distinct keys may come in any order. -/
structure GoesKeyByKey (d : DraftVector) : Prop where
  setAll : ∀ {μ : Type} [ValueMap μ] (m : μ), ∃ e, d.setAll m = (.ok (), e) ∧
    d.setEach (ValueMap.entries m) = .ok e
  addAll : ∀ {μ : Type} [ValueMap μ] (m : μ), ∃ e, d.addAll m = (.ok (), e) ∧
    d.addEach (ValueMap.entries m) = .ok e
  fill : ∀ x, ∃ e, d.fill x = (.ok (), e) ∧
    d.domain.toList.foldlM (fun d key => skipping [] (d.set key x)) d = .ok e
  clear : ∃ e, d.clear = (.ok (), e) ∧
    d.domain.toList.foldlM (fun d key => skipping [] (d.unset key)) d = .ok e
  scale : ∀ factor, ∃ e, d.scale factor = (.ok (), e) ∧ d.Rewrites (fun _ => Cell.scale factor) e ∧
    d.setEach (d.entries.map fun (key, x) => (key, x * factor)) = .ok e
  anyOrder : ∀ {μ ν : Type} [ValueMap μ] [ValueMap ν] (m : μ) (m' : ν),
    (ValueMap.entries m).Perm (ValueMap.entries m') →
      ((ValueMap.entries m).map Prod.fst).Nodup →
        d.setAll m = d.setAll m' ∧ d.addAll m = d.addAll m'
  hashed : ∀ (m : Std.HashMap Int64 Binary64) (pairs : List (Int64 × Binary64)),
    pairs.Perm m.toList → d.setAll m = d.setAll pairs ∧ d.addAll m = d.addAll pairs

theorem setEach_eq (h : d.frozen = false) (pairs : List (Int64 × Binary64)) :
    d.setEach pairs = .ok (pairs.foldl (fun d p => d.assignKey p.1 p.2) d) := by
  apply foldlM_eq_ok_foldl _ (fun d p => rewrites_assignKey d p.1 p.2) h
  intro pair _ e _ hopen
  exact exists_set_rewrites hopen (.inr List.mem_cons_self) pair.2

theorem addEach_eq (h : d.frozen = false) (pairs : List (Int64 × Binary64)) :
    d.addEach pairs = .ok (pairs.foldl (fun d p => d.addKey p.1 p.2) d) := by
  apply foldlM_eq_ok_foldl _ (fun d p => rewrites_addKey d p.1 p.2) h
  intro pair _ e _ hopen
  exact exists_add_rewrites hopen pair.1 pair.2

section Maps

variable {μ ν : Type} [ValueMap μ] [ValueMap ν]

theorem setAll_eq (h : d.frozen = false) (m : μ) :
    d.setAll m = (.ok (), (ValueMap.entries m).foldl (fun d p => d.assignKey p.1 p.2) d) := by
  rw [setAll, checkOpen_eq h]

theorem addAll_eq (h : d.frozen = false) (m : μ) :
    d.addAll m = (.ok (), (ValueMap.entries m).foldl (fun d p => d.addKey p.1 p.2) d) := by
  rw [addAll, checkOpen_eq h]

theorem bulk_perm (h : d.frozen = false) (m : μ) (m' : ν)
    (hperm : (ValueMap.entries m).Perm (ValueMap.entries m'))
    (hnodup : ((ValueMap.entries m).map Prod.fst).Nodup) :
    d.setAll m = d.setAll m' ∧ d.addAll m = d.addAll m' := by
  rw [setAll_eq h, setAll_eq h, addAll_eq h, addAll_eq h,
    foldl_perm (fun d p => rewrites_assignKey d p.1 p.2) hperm hnodup,
    foldl_perm (fun d p => rewrites_addKey d p.1 p.2) hperm hnodup]
  exact ⟨rfl, rfl⟩

end Maps

/-- Calls for all keys of the domain rewrite all cells. -/
theorem foldlM_domain_eq {call : DraftVector → Int64 → Except Failure DraftVector}
    {f : Cell → Cell} (hcall : ∀ key (e : DraftVector), e.frozen = false →
      key ∈ e.domain.toList → ∃ e', call e key = .ok e' ∧ e.Rewrites (only key f) e')
    (h : d.frozen = false) (hall : d.Rewrites (fun _ => f) e) :
    d.domain.toList.foldlM call d = .ok e := by
  have hcalls : ∀ key ∈ d.domain.toList, ∀ e : DraftVector, e.domain = d.domain →
      e.frozen = false → ∃ e', call e key = .ok e' ∧ e.Rewrites (only key f) e' := by
    intro key hkey e hdomain hopen
    exact hcall key e hopen (hdomain ▸ hkey)
  have hnodup : (d.domain.toList.map id).Nodup := by
    rw [List.map_id]
    exact d.domain.toList_pairwise.imp Int64.ne_of_lt
  obtain ⟨e', he', hrewrites⟩ := exists_foldlM_rewrites hcalls h
  have honce : d.Rewrites (fun _ => f) e' := by
    apply hrewrites.congr
    intro key c hcell
    exact foldl_only_of_mem (f := fun _ => f) hnodup (mem_toList_of_cell? hcell) c
  rw [he', honce.unique hall]

theorem exists_fill_eq_ok (h : d.frozen = false) (x : Binary64) : ∃ e, d.fill x = (.ok (), e) ∧
    d.domain.toList.foldlM (fun d key => skipping [] (d.set key x)) d = .ok e := by
  rw [fill, checkOpen_eq h]
  exact ⟨_, rfl, foldlM_domain_eq (fun _ _ hopen hkey => exists_set_rewrites hopen (.inl hkey) x)
    h (rewrites_fill x)⟩

theorem exists_clear_eq_ok (h : d.frozen = false) : ∃ e, d.clear = (.ok (), e) ∧
    d.domain.toList.foldlM (fun d key => skipping [] (d.unset key)) d = .ok e := by
  rw [clear, checkOpen_eq h]
  exact ⟨_, rfl, foldlM_domain_eq (fun _ _ => exists_unset_rewrites) h rewrites_clear⟩

/-- Setting each entry to its multiple rewrites the assigned cells and no other. -/
theorem rewrites_scaledEntries (d : DraftVector) (factor : Binary64) :
    d.Rewrites (fun _ => Cell.scale factor)
      ((d.entries.map fun (key, x) => (key, x * factor)).foldl
        (fun d p => d.assignKey p.1 p.2) d) := by
  have hwrites := rewrites_foldl (fun d (p : Int64 × Binary64) =>
    rewrites_assignKey d p.1 (p.2 * factor)) d.entries d
  rw [List.foldl_map]
  apply hwrites.congr
  rintro key ⟨x, assigned⟩ hcell
  cases assigned with
  | true =>
    exact foldl_only_of_mem (f := fun p => Cell.assign (p.2 * factor))
      (d.keys_pairwise.imp Int64.ne_of_lt) (mem_entries_iff_cell?.2 hcell) ⟨x, true⟩
  | false =>
    have hkey : key ∉ d.entries.map Prod.fst := by
      intro hmem
      obtain ⟨⟨_, y⟩, hentry, rfl⟩ := List.mem_map.1 hmem
      cases hcell.symm.trans (mem_entries_iff_cell?.1 hentry)
    exact foldl_only_of_not_mem (f := fun p => Cell.assign (p.2 * factor)) hkey ⟨x, false⟩

theorem exists_scale_eq_setEach (h : d.frozen = false) (factor : Binary64) :
    ∃ e, d.scale factor = (.ok (), e) ∧ d.Rewrites (fun _ => Cell.scale factor) e ∧
      d.setEach (d.entries.map fun (key, x) => (key, x * factor)) = .ok e := by
  obtain ⟨e, he, hscale⟩ := exists_scale_rewrites h factor
  refine ⟨e, he, hscale, ?_⟩
  rw [setEach_eq h, (d.rewrites_scaledEntries factor).unique hscale]

/-- As long as a draft is not frozen, its bulk calls are calls for single keys. -/
theorem bulk_calls_go_key_by_key (d : DraftVector) (h : d.frozen = false) : d.GoesKeyByKey where
  setAll := fun m => ⟨_, setAll_eq h m, setEach_eq h _⟩
  addAll := fun m => ⟨_, addAll_eq h m, addEach_eq h _⟩
  fill := exists_fill_eq_ok h
  clear := exists_clear_eq_ok h
  scale := exists_scale_eq_setEach h
  anyOrder := bulk_perm h
  hashed := fun m pairs hperm => bulk_perm h m pairs hperm.symm (nodup_keys_hashMap m)

/-- The value of key 1 was taken away, and the entries to add and to set repeat keys and have one
that is not in the domain. -/
theorem bulk_calls_go_key_by_key_repeats : ∃ d sum e : DraftVector, d.frozen = false ∧
    d.entries = [(3, 0)] ∧ d.cell? 1 = some ⟨.nan, false⟩ ∧
    d.addEach [(1, 0), (9, 0), (3, .nan)] = .ok sum ∧ sum.entries = [(3, .nan)] ∧
    d.setEach [(3, 0), (9, 0), (1, 0), (3, .nan)] = .ok e ∧ e.entries = [(1, 0), (3, .nan)] := by
  let full := ((ofDomain (.whole [1, 3, 5] (by decide))).assign ⟨0, by decide⟩ .nan).assign
    ⟨1, by decide⟩ 0
  let d : DraftVector := { full with assigned := full.assigned.erase ⟨0, by decide⟩ }
  obtain ⟨sum, hadd, haddEach⟩ := (bulk_calls_go_key_by_key d rfl).addAll
    [((1 : Int64), (0 : Binary64)), (9, 0), (3, .nan)]
  obtain ⟨e, hset, hsetEach⟩ := (bulk_calls_go_key_by_key d rfl).setAll
    [((3 : Int64), (0 : Binary64)), (9, 0), (1, 0), (3, .nan)]
  cases hadd
  cases hset
  exact ⟨d, _, _, rfl, by decide +kernel, by decide +kernel, haddEach, by decide +kernel,
    hsetEach, by decide +kernel⟩

end DraftVector

end PackedRatings
